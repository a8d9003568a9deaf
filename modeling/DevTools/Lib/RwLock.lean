import Mathlib.Data.Fintype.Basic

/-!
# Readers-writer exclusion

A thread holds a lock in a mode. `Excl` is what `pthread_rwlock_rdlock` and
`pthread_rwlock_wrlock` guarantee: a writer excludes every other holder, while readers overlap
freely. A mutex is the case in which no thread ever reads.
-/

namespace DevTools

/-- How a thread holds a lock. -/
inductive Hold
  | free
  | read
  | write
  deriving DecidableEq, Repr

variable {ι : Type*}

/-- A writer excludes every other holder. -/
def Excl (hold : ι → Hold) : Prop :=
  ∀ i j, i ≠ j → hold i = .write → hold j = .free

/-- When a request for the mode is granted: a reader waits for the writer, a writer for
everyone. -/
def Grantable (hold : ι → Hold) : Hold → Prop
  | .free => True
  | .read => ∀ j, hold j ≠ .write
  | .write => ∀ j, hold j = .free

instance [Fintype ι] (hold : ι → Hold) (m : Hold) : Decidable (Grantable hold m) :=
  match m with
  | .free => inferInstanceAs (Decidable True)
  | .read => inferInstanceAs (Decidable (∀ _, _))
  | .write => inferInstanceAs (Decidable (∀ _, _))

namespace Excl

variable {hold hold' : ι → Hold}

/-- Thread `i` moves on without a new request: it keeps its mode or lets go. -/
theorem keep (h : Excl hold) {i : ι} (hself : hold' i = hold i ∨ hold' i = .free)
    (hother : ∀ j, j ≠ i → hold' j = hold j) : Excl hold' := by
  intro j k hjk hj
  rcases eq_or_ne j i with rfl | hji
  · rcases hself with hself | hself
    · rw [hother k hjk.symm]
      exact h j k hjk (hself ▸ hj)
    · rw [hself] at hj
      cases hj
  · rw [hother j hji] at hj
    rcases eq_or_ne k i with rfl | hki
    · rcases hself with hself | hself
      · rw [hself]
        exact h j k hjk hj
      · exact hself
    · rw [hother k hki]
      exact h j k hjk hj

/-- Thread `i` is granted the mode `m`. -/
theorem grant (h : Excl hold) {i : ι} {m : Hold} (hm : Grantable hold m) (hself : hold' i = m)
    (hother : ∀ j, j ≠ i → hold' j = hold j) : Excl hold' := by
  intro j k hjk hj
  rcases eq_or_ne j i with rfl | hji
  · rw [hself] at hj
    subst hj
    rw [hother k hjk.symm]
    exact hm k
  · rw [hother j hji] at hj
    rcases eq_or_ne k i with rfl | hki
    · cases m with
      | free => exact hself
      | read => exact absurd hj (hm j)
      | write => rw [hm j] at hj; cases hj
    · rw [hother k hki]
      exact h j k hjk hj

end Excl

end DevTools
