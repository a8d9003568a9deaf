import DevTools.Lib.Transition

/-!
# Monitors

A monitor runs beside a system, sees every step and keeps a value of its own. It takes no step away
(`LTS.Reach.exists_monitor`), so what is shown about its value is shown about all runs.
-/

namespace DevTools.LTS

variable {σ α μ : Type*}

/-- `T` with a value that every step updates. -/
def monitor (T : LTS σ α) (start : μ) (update : σ → α → σ → μ → μ) : LTS (σ × μ) α where
  init x := T.init x.1 ∧ x.2 = start
  step x a y := T.step x.1 a y.1 ∧ y.2 = update x.1 a y.1 x.2

variable {T : LTS σ α} {start : μ} {update : σ → α → σ → μ → μ}

theorem Reach.exists_monitor {s : σ} (h : T.Reach s) :
    ∃ m, (T.monitor start update).Reach (s, m) := by
  induction h with
  | init h => exact ⟨start, .init ⟨h, rfl⟩⟩
  | @step s s' a _ ha ih =>
    obtain ⟨m, hm⟩ := ih
    have hstep : (T.monitor start update).step (s, m) a (s', update s a s' m) := ⟨ha, rfl⟩
    exact ⟨_, hm.step hstep⟩

/-- A relation between the state and the value, kept by every step. -/
theorem Reach.monitor_invariant {I : σ → μ → Prop} (hinit : ∀ s, T.init s → I s start)
    (hstep : ∀ s a s' m, I s m → T.step s a s' → I s' (update s a s' m)) {s : σ} {m : μ}
    (h : (T.monitor start update).Reach (s, m)) : I s m := by
  have hall : ∀ x : σ × μ, (T.monitor start update).Reach x → I x.1 x.2 := by
    intro x hx
    refine Reach.invariant (I := fun x : σ × μ => I x.1 x.2) ?_ ?_ hx
    · intro x hx
      rw [hx.2]
      exact hinit x.1 hx.1
    · intro x a y hi ha
      rw [ha.2]
      exact hstep x.1 a y.1 x.2 hi ha.1
  exact hall (s, m) h

/-- The same along a run from any state. -/
theorem Run.monitor_invariant {I : σ → μ → Prop} {s : σ} {m : μ} (h0 : I s m)
    (hstep : ∀ s a s' m, I s m → T.step s a s' → I s' (update s a s' m)) {s' : σ} {m' : μ}
    (h : (T.monitor start update).Run (s, m) (s', m')) : I s' m' := by
  have hall : ∀ x : σ × μ, (T.monitor start update).Run (s, m) x → I x.1 x.2 := by
    intro x hx
    refine Run.invariant (I := fun x : σ × μ => I x.1 x.2) h0 ?_ hx
    intro x a y _ hi ha
    rw [ha.2]
    exact hstep x.1 a y.1 x.2 hi ha.1
  exact hall (s', m') h

end DevTools.LTS
