import Mathlib.Logic.Relation

/-!
# Labelled transition systems

A system is a predicate on initial states and a labelled step relation. Everything the
development says about interleavings is said about `LTS.Reach` (the states some run ends in)
and `LTS.Run` (what one state may become).

* `LTS.Reach.invariant`: an invariant holds initially and is kept by every step.
* `LTS.Reach.exec`: a run computed by an executable step function is a run.
* `LTS.restrict`: the runs all of whose steps meet a condition on the state before and the
  label.
-/

namespace DevTools

variable {σ α : Type*}

/-- A labelled transition system. -/
structure LTS (σ α : Type*) where
  init : σ → Prop
  step : σ → α → σ → Prop

namespace LTS

/-- The states that runs from an initial state end in. -/
inductive Reach (T : LTS σ α) : σ → Prop
  | init {s : σ} : T.init s → Reach T s
  | step {s s' : σ} {a : α} : Reach T s → T.step s a s' → Reach T s'

/-- `T.Run s s'`: some finite sequence of steps leads from `s` to `s'`. -/
inductive Run (T : LTS σ α) (s : σ) : σ → Prop
  | refl : Run T s s
  | step {t u : σ} {a : α} : Run T s t → T.step t a u → Run T s u

theorem Reach.invariant {T : LTS σ α} {I : σ → Prop} (hinit : ∀ s, T.init s → I s)
    (hstep : ∀ s a s', I s → T.step s a s' → I s') {s : σ} (h : T.Reach s) : I s := by
  induction h with
  | init h => exact hinit _ h
  | step _ ha ih => exact hstep _ _ _ ih ha

theorem Reach.run {T : LTS σ α} {s s' : σ} (h : T.Reach s) (hr : T.Run s s') : T.Reach s' := by
  induction hr with
  | refl => exact h
  | step _ ha ih => exact ih.step ha

theorem Run.trans {T : LTS σ α} {s t u : σ} (h : T.Run s t) (h' : T.Run t u) : T.Run s u := by
  induction h' with
  | refl => exact h
  | step _ ha ih => exact ih.step ha

/-- A relation between the first state of a run and its current one, kept by every step. -/
theorem Run.invariant {T : LTS σ α} {s : σ} {I : σ → Prop} (h0 : I s)
    (hstep : ∀ t a u, T.Run s t → I t → T.step t a u → I u) {s' : σ} (h : T.Run s s') : I s' := by
  induction h with
  | refl => exact h0
  | step hr ha ih => exact hstep _ _ _ hr ih ha

/-- A computed run is a run: `exec` performs one labelled step where it can. -/
theorem Run.exec {T : LTS σ α} {exec : σ → α → Option σ}
    (hsound : ∀ s a s', exec s a = some s' → T.step s a s') {s t u : σ} {as : List α}
    (h : T.Run s t) (hrun : as.foldlM exec t = some u) : T.Run s u := by
  induction as generalizing t with
  | nil =>
    simp only [List.foldlM_nil, Option.pure_def, Option.some.injEq] at hrun
    exact hrun ▸ h
  | cons a as ih =>
    simp only [List.foldlM_cons, Option.bind_eq_bind, Option.bind_eq_some_iff] at hrun
    obtain ⟨t', ht, hrun⟩ := hrun
    exact ih (h.step (hsound t a t' ht)) hrun

theorem Reach.exec {T : LTS σ α} {exec : σ → α → Option σ}
    (hsound : ∀ s a s', exec s a = some s' → T.step s a s') {s s' : σ} {as : List α}
    (h : T.Reach s) (hrun : as.foldlM exec s = some s') : T.Reach s' :=
  h.run (Run.refl.exec hsound hrun)

/-- The system whose steps are those of `T` that meet `ok` in the state before. -/
def restrict (T : LTS σ α) (ok : σ → α → Prop) : LTS σ α where
  init := T.init
  step s a s' := ok s a ∧ T.step s a s'

theorem Reach.of_restrict {T : LTS σ α} {ok : σ → α → Prop} {s : σ}
    (h : (T.restrict ok).Reach s) : T.Reach s := by
  induction h with
  | init h => exact .init h
  | step _ ha ih => exact ih.step ha.2

/-- A computed run whose labels meet the condition in every state. -/
theorem Reach.exec_restrict {T : LTS σ α} {ok : σ → α → Prop} {exec : σ → α → Option σ}
    (hsound : ∀ s a s', exec s a = some s' → T.step s a s') {s s' : σ} {as : List α}
    (h : (T.restrict ok).Reach s) (hok : ∀ a ∈ as, ∀ s, ok s a)
    (hrun : as.foldlM exec s = some s') : (T.restrict ok).Reach s' := by
  induction as generalizing s with
  | nil =>
    simp only [List.foldlM_nil, Option.pure_def, Option.some.injEq] at hrun
    exact hrun ▸ h
  | cons a as ih =>
    simp only [List.foldlM_cons, Option.bind_eq_bind, Option.bind_eq_some_iff] at hrun
    obtain ⟨t, ht, hrun⟩ := hrun
    have hstep : (T.restrict ok).step s a t := ⟨hok a List.mem_cons_self s, hsound s a t ht⟩
    exact ih (h.step hstep) (fun b hb => hok b (List.mem_cons_of_mem a hb)) hrun

end LTS

end DevTools
