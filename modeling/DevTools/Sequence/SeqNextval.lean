import DevTools.Sequence.Interleaving

/-!
# The stored function `seq_nextval_v2`

Any number of executions of the function run against one row of `t_sequence`. Each iteration is
two statements: a `SELECT` that reads `VALUE + step` and `step`, and an `UPDATE` that writes the
sum if the row still holds what was read. A failed `UPDATE` starts the next iteration; after 100
of them the function gives up with `-1,0`. Between statements anything may happen, including a
change of the row's step.

**Theorem (`Db.segments_disjoint`).** The segments `(val - inc, val]` that the executions return
are pairwise disjoint.

The invariant is that a returned segment ends at or below the row's value: a successful
`UPDATE` takes the counters right above it.
-/

namespace DevTools.Sequence

/-- A row of `t_sequence`. -/
structure Row where
  value : Int
  step : Int
  deriving DecidableEq, Repr

/-- Where an execution of `seq_nextval_v2` stands. -/
inductive SqlPc
  | unused
  /-- before the `SELECT` of iteration `i` -/
  | select (i : Nat)
  /-- before the `UPDATE` of iteration `i` -/
  | update (i : Nat) (val inc : Int)
  /-- returned: the segment, or nothing after 100 failures -/
  | finished (res : Option (Int × Int))
  deriving DecidableEq, Repr

/-- The text `retval`. -/
def retval : Option (Int × Int) → List Char
  | some (val, inc) => castAsChar (val - inc) ++ ',' :: castAsChar inc
  | none => ['-', '1', ',', '0']

/-- The row and the executions on it. -/
structure Db (γ : Type) where
  row : Row
  sql : γ → SqlPc

inductive DbAct (γ : Type)
  | start (c : γ)
  | select (c : γ)
  | update (c : γ)
  /-- an administrator's change of the row's step -/
  | setStep (n : Int)

namespace Db

variable {γ : Type} [DecidableEq γ]

def goto (d : Db γ) (c : γ) (p : SqlPc) : Db γ := { d with sql := Function.update d.sql c p }

/-- One statement. `BIGINT` overflow is excluded, and a new step is a positive `INT`. -/
def next (d : Db γ) : DbAct γ → Option (Db γ)
  | .start c => match d.sql c with
    | .unused => some (d.goto c (.select 0))
    | _ => none
  | .select c => match d.sql c with
    | .select i => if InInt64 (d.row.value + d.row.step) then
        some (d.goto c (.update i (d.row.value + d.row.step) d.row.step)) else none
    | _ => none
  | .update c => match d.sql c with
    | .update i val inc => if d.row.value = val - inc then
        some { d.goto c (.finished (some (val, inc))) with row := { d.row with value := val } }
      else some (d.goto c (if i + 1 < 100 then .select (i + 1) else .finished none))
    | _ => none
  | .setStep n => if 0 < n ∧ n < 2 ^ 31 then some { d with row := { d.row with step := n } }
    else none

variable {d d' : Db γ} {a : DbAct γ}

@[simp] theorem goto_row (d : Db γ) (c : γ) (p : SqlPc) : (d.goto c p).row = d.row := rfl

@[simp] theorem goto_sql_self (d : Db γ) (c : γ) (p : SqlPc) : (d.goto c p).sql c = p := by
  simp [goto]

theorem goto_sql_ne (d : Db γ) {c c' : γ} (p : SqlPc) (h : c' ≠ c) :
    (d.goto c p).sql c' = d.sql c' := by
  simp [goto, h]

/-- **What a statement can do.** -/
theorem next_cases (h : d.next a = some d') :
    (∃ c, d.sql c = .unused ∧ a = .start c ∧ d' = d.goto c (.select 0)) ∨
    (∃ c i, d.sql c = .select i ∧ InInt64 (d.row.value + d.row.step) ∧
      d' = d.goto c (.update i (d.row.value + d.row.step) d.row.step)) ∨
    (∃ c i val inc, d.sql c = .update i val inc ∧ d.row.value = val - inc ∧
      d' = { d.goto c (.finished (some (val, inc))) with row := { d.row with value := val } }) ∨
    (∃ c i val inc p, d.sql c = .update i val inc ∧ (p = .finished none ∨ ∃ j, p = .select j) ∧
      d' = d.goto c p) ∨
    (∃ n, 0 < n ∧ n < 2 ^ 31 ∧ d' = { d with row := { d.row with step := n } }) := by
  cases a with
  | start c =>
    simp only [next] at h
    split at h
    · cases h
      exact .inl ⟨c, ‹_›, rfl, rfl⟩
    · cases h
  | select c =>
    simp only [next] at h
    split at h
    · simp only [Option.ite_none_right_eq_some, Option.some.injEq] at h
      obtain ⟨hr, rfl⟩ := h
      exact .inr (.inl ⟨c, _, ‹_›, hr, rfl⟩)
    · cases h
  | update c =>
    simp only [next] at h
    split at h
    · rename_i i val inc hc
      split_ifs at h with hhit hlast
      · cases h
        exact .inr (.inr (.inl ⟨c, i, val, inc, hc, hhit, rfl⟩))
      · cases h
        exact .inr (.inr (.inr (.inl ⟨c, i, val, inc, _, hc, .inr ⟨_, rfl⟩, rfl⟩)))
      · cases h
        exact .inr (.inr (.inr (.inl ⟨c, i, val, inc, _, hc, .inl rfl, rfl⟩)))
    · cases h
  | setStep n =>
    simp only [next, Option.ite_none_right_eq_some, Option.some.injEq] at h
    obtain ⟨⟨hpos, hlt⟩, rfl⟩ := h
    exact .inr (.inr (.inr (.inr ⟨n, hpos, hlt, rfl⟩)))

/-! ## The invariant -/

/-- What an execution read is a segment: its length is a positive `INT`, and neither end leaves
`BIGINT`. -/
structure Read (val inc : Int) : Prop where
  pos : 0 < inc
  int : inc < 2 ^ 31
  high : InInt64 val
  low : InInt64 (val - inc)

structure Inv (d : Db γ) : Prop where
  pos : 0 < d.row.step
  int : d.row.step < 2 ^ 31
  range : InInt64 d.row.value
  read : ∀ c i val inc, d.sql c = .update i val inc → Read val inc
  returned : ∀ c val inc, d.sql c = .finished (some (val, inc)) →
    Read val inc ∧ val ≤ d.row.value
  /-- Of two returned segments, one ends before the other starts. -/
  apart : ∀ c c' val inc val' inc', c ≠ c' → d.sql c = .finished (some (val, inc)) →
    d.sql c' = .finished (some (val', inc')) → val ≤ val' - inc' ∨ val' ≤ val - inc

omit [DecidableEq γ] in
theorem inv_init {r : Row} (hpos : 0 < r.step) (hint : r.step < 2 ^ 31) (hr : InInt64 r.value) :
    Inv (⟨r, fun _ => .unused⟩ : Db γ) where
  pos := hpos
  int := hint
  range := hr
  read c i val inc h := by cases h
  returned c val inc h := by cases h
  apart c c' val inc val' inc' _ h := by cases h

/-- An execution that moves to a point where it has returned no segment keeps the invariant. -/
theorem inv_goto (h : Inv d) {c : γ} {p : SqlPc} (hread : ∀ i val inc, p = .update i val inc →
    Read val inc) (hp : ∀ val inc, p ≠ .finished (some (val, inc))) : Inv (d.goto c p) where
  pos := h.pos
  int := h.int
  range := h.range
  read c' i val inc hc' := by
    by_cases hcc : c' = c
    · subst hcc
      rw [goto_sql_self] at hc'
      exact hread i val inc hc'
    · rw [goto_sql_ne d p hcc] at hc'
      exact h.read c' i val inc hc'
  returned c' val inc hc' := by
    by_cases hcc : c' = c
    · subst hcc
      rw [goto_sql_self] at hc'
      exact absurd hc' (hp val inc)
    · rw [goto_sql_ne d p hcc] at hc'
      exact h.returned c' val inc hc'
  apart c₁ c₂ val inc val' inc' hne h₁ h₂ := by
    by_cases hc₁ : c₁ = c
    · subst hc₁
      rw [goto_sql_self] at h₁
      exact absurd h₁ (hp val inc)
    · by_cases hc₂ : c₂ = c
      · subst hc₂
        rw [goto_sql_self] at h₂
        exact absurd h₂ (hp val' inc')
      · rw [goto_sql_ne d p hc₁] at h₁
        rw [goto_sql_ne d p hc₂] at h₂
        exact h.apart c₁ c₂ val inc val' inc' hne h₁ h₂

/-- A successful `UPDATE` takes the counters right above everything returned before. -/
theorem inv_updated (h : Inv d) {c : γ} {i : Nat} {val inc : Int}
    (hc : d.sql c = .update i val inc) (hhit : d.row.value = val - inc) :
    Inv { d.goto c (.finished (some (val, inc))) with row := { d.row with value := val } } := by
  have hread := h.read c i val inc hc
  have hpos := hread.pos
  exact {
    pos := h.pos
    int := h.int
    range := hread.high
    read := by
      intro c' j v n hc'
      by_cases hcc : c' = c
      · subst hcc
        simp at hc'
      · simp only [goto_sql_ne d _ hcc] at hc'
        exact h.read c' j v n hc'
    returned := by
      intro c' v n hc'
      by_cases hcc : c' = c
      · subst hcc
        simp only [goto_sql_self, SqlPc.finished.injEq, Option.some.injEq, Prod.mk.injEq] at hc'
        obtain ⟨rfl, rfl⟩ := hc'
        exact ⟨hread, le_refl _⟩
      · simp only [goto_sql_ne d _ hcc] at hc'
        obtain ⟨hr, hle⟩ := h.returned c' v n hc'
        exact ⟨hr, by simp only; omega⟩
    apart := by
      intro c₁ c₂ v n v' n' hne h₁ h₂
      by_cases hc₁ : c₁ = c
      · subst hc₁
        simp only [goto_sql_ne d _ (Ne.symm hne)] at h₂
        simp only [goto_sql_self, SqlPc.finished.injEq, Option.some.injEq, Prod.mk.injEq] at h₁
        obtain ⟨rfl, rfl⟩ := h₁
        have hle := (h.returned c₂ v' n' h₂).2
        exact .inr (by omega)
      · simp only [goto_sql_ne d _ hc₁] at h₁
        by_cases hc₂ : c₂ = c
        · subst hc₂
          simp only [goto_sql_self, SqlPc.finished.injEq, Option.some.injEq,
            Prod.mk.injEq] at h₂
          obtain ⟨rfl, rfl⟩ := h₂
          have hle := (h.returned c₁ v n h₁).2
          exact .inl (by omega)
        · simp only [goto_sql_ne d _ hc₂] at h₂
          exact h.apart c₁ c₂ v n v' n' hne h₁ h₂ }

theorem inv_next (h : Inv d) (ha : d.next a = some d') : Inv d' := by
  obtain ⟨c, -, -, rfl⟩ | ⟨c, i, -, hr, rfl⟩ | ⟨c, i, val, inc, hc, hhit, rfl⟩ |
    ⟨c, i, val, inc, p, -, hp, rfl⟩ | ⟨n, hpos, hint, rfl⟩ := next_cases ha
  · exact inv_goto h nofun nofun
  · refine inv_goto h (fun j v n hp => ?_) nofun
    cases hp
    refine ⟨h.pos, h.int, hr, ?_⟩
    rw [show d.row.value + d.row.step - d.row.step = d.row.value by omega]
    exact h.range
  · exact inv_updated h hc hhit
  · rcases hp with rfl | ⟨j, rfl⟩
    · exact inv_goto h nofun nofun
    · exact inv_goto h nofun nofun
  · exact { h with pos := hpos, int := hint }

/-! ## Consequences -/

/-- The row's value never decreases. -/
theorem value_mono (h : Inv d) (ha : d.next a = some d') : d.row.value ≤ d'.row.value := by
  obtain ⟨c, -, -, rfl⟩ | ⟨c, i, -, hr, rfl⟩ | ⟨c, i, val, inc, hc, hhit, rfl⟩ |
    ⟨c, i, val, inc, p, -, -, rfl⟩ | ⟨n, hpos, hint, rfl⟩ := next_cases ha
  · exact le_refl _
  · exact le_refl _
  · have hpos := (h.read c i val inc hc).pos
    simp only
    omega
  · exact le_refl _
  · exact le_refl _

/-- A finished execution stays as it is, and nobody starts an execution twice. -/
theorem sql_next (ha : d.next a = some d') (c : γ) :
    (∀ res, d.sql c = .finished res → d'.sql c = .finished res) ∧
    (d.sql c ≠ .unused → d'.sql c ≠ .unused) := by
  have hgoto : ∀ {c₀ : γ} {p : SqlPc}, (∀ res, d.sql c₀ ≠ .finished res) → p ≠ .unused →
      (∀ res, d.sql c = .finished res → (d.goto c₀ p).sql c = .finished res) ∧
      (d.sql c ≠ .unused → (d.goto c₀ p).sql c ≠ .unused) := by
    intro c₀ p h₀ hp
    by_cases hc : c = c₀
    · subst hc
      exact ⟨fun res hres => absurd hres (h₀ res), fun _ => by rwa [goto_sql_self]⟩
    · rw [goto_sql_ne d p hc]
      exact ⟨fun _ => id, id⟩
  obtain ⟨c₀, hc, -, rfl⟩ | ⟨c₀, i, hc, -, rfl⟩ | ⟨c₀, i, val, inc, hc, -, rfl⟩ |
    ⟨c₀, i, val, inc, p, hc, hp, rfl⟩ | ⟨n, -, -, rfl⟩ := next_cases ha
  · exact hgoto (by simp [hc]) nofun
  · exact hgoto (by simp [hc]) nofun
  · exact hgoto (by simp [hc]) nofun
  · exact hgoto (by simp [hc]) (by rcases hp with rfl | ⟨j, rfl⟩ <;> nofun)
  · exact ⟨fun _ => id, id⟩

/-- The segment an execution returned. -/
def segment (d : Db γ) (c : γ) : Option Segment :=
  match d.sql c with
  | .finished (some (val, inc)) => some ⟨val - inc, inc⟩
  | _ => none

omit [DecidableEq γ] in
theorem segment_eq_some {c : γ} {g : Segment} :
    d.segment c = some g ↔ d.sql c = .finished (some (g.start + g.len, g.len)) := by
  unfold segment
  split
  · rename_i val inc hc
    rw [hc]
    constructor
    · intro h
      cases h
      simp
    · intro h
      simp only [SqlPc.finished.injEq, Option.some.injEq, Prod.mk.injEq] at h
      obtain ⟨rfl, rfl⟩ := h
      simp
  · rename_i hc
    exact ⟨nofun, fun h => absurd h (hc _ _)⟩

omit [DecidableEq γ] in
/-- **The returned segments are pairwise disjoint.** -/
theorem segments_disjoint (h : Inv d) {c c' : γ} {g g' : Segment} (hne : c ≠ c')
    (hg : d.segment c = some g) (hg' : d.segment c' = some g') : Disjoint g.ids g'.ids := by
  rw [segment_eq_some] at hg hg'
  have hapart := h.apart c c' _ _ _ _ hne hg hg'
  rw [Set.disjoint_left]
  rintro x ⟨h1, h2⟩ ⟨h3, h4⟩
  rcases hapart with h | h
  · omega
  · omega

/-! ## The reply, read by the worker -/

/-- `nextRange` reads back the segment that the function returned. -/
theorem parseReply_retval {val inc : Int} (h : Read val inc) :
    parseReply (retval (some (val, inc))) = some (val - inc, inc) := by
  have hint : InInt32 inc := ⟨by have := h.pos; omega, h.int⟩
  have hinc64 : InInt64 inc := by
    have := h.pos
    have := h.int
    unfold InInt64
    omega
  have hfirst : atol (castAsChar (val - inc)) = val - inc := by
    simpa using atol_castAsChar h.low (r := []) (by simp)
  have hsecond : atol (castAsChar inc) = inc := by
    simpa using atol_castAsChar hinc64 (r := []) (by simp)
  rw [retval, parseReply_comma (comma_notMem_castAsChar _) (head_castAsChar _), hfirst, hsecond,
    wrap32_of_inInt32 hint]

/-- **A refill from the function's reply installs its segment.** -/
theorem nextRange_retval {name : String} {res : Option (Int × Int)}
    {out w : DefaultSequenceWorker}
    (hread : ∀ val inc, res = some (val, inc) → Read val inc)
    (h : nextRange name (.row (retval res)) out = .ok w) :
    res = some (w.segment.start + w.segment.len, w.segment.len) := by
  unfold nextRange at h
  split at h
  · cases h
  · cases res with
    | none =>
      have hparse : parseReply (retval none) = some (-1, 0) := by decide
      simp only [hparse] at h
      exact absurd rfl (install_eq_ok h).1
    | some p =>
      obtain ⟨val, inc⟩ := p
      simp only [parseReply_retval (hread val inc rfl)] at h
      obtain ⟨-, -, -, rfl⟩ := install_eq_ok h
      simp [DefaultSequenceWorker.segment]

end Db

end DevTools.Sequence
