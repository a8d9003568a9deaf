import DevTools.Lib.Transition
import Mathlib.Data.Fintype.Card
import Mathlib.Logic.Function.Basic
import Mathlib.Order.WellFounded

/-!
# Locks taken in one order

Transactions lock rows one after the other, wait where somebody else holds the next one, and keep
what they have until they end. `plan` says which sequences of rows a transaction may ask for; a
transaction may end at any time, with all of its rows or before.

* `Locks.no_cycle`: if every plan goes up in one order of the rows, the transactions never wait
  for each other in a circle.
* `Locks.progress`: so among finitely many transactions some one can always go on.
-/

namespace DevTools

variable {ι R : Type*}

/-- What each transaction holds and what it has still to lock. -/
structure Locks (ι R : Type*) where
  held : ι → List R
  todo : ι → List R

namespace Locks

inductive Act (ι R : Type*)
  | start (i : ι) (rows : List R)
  | lock (i : ι)
  | finish (i : ι)

/-- Nobody runs. -/
def new : Locks ι R := ⟨fun _ => [], fun _ => []⟩

/-- A step of the transaction that `Act` names. -/
inductive Step [DecidableEq ι] (plan : List R → Prop) : Locks ι R → Act ι R → Locks ι R → Prop
  | start {s : Locks ι R} {i : ι} {rows : List R} : s.held i = [] → s.todo i = [] → plan rows →
      Step plan s (.start i rows) { s with todo := Function.update s.todo i rows }
  | lock {s : Locks ι R} {i : ι} {r : R} {rest : List R} : s.todo i = r :: rest →
      (∀ j, j ≠ i → r ∉ s.held j) →
      Step plan s (.lock i)
        ⟨Function.update s.held i (r :: s.held i), Function.update s.todo i rest⟩
  | finish {s : Locks ι R} {i : ι} :
      Step plan s (.finish i) ⟨Function.update s.held i [], Function.update s.todo i []⟩

def lts [DecidableEq ι] (plan : List R → Prop) : LTS (Locks ι R) (Act ι R) where
  init s := s = new
  step := Step plan

/-- `i` asks for a row that `j` holds. -/
def WaitsFor (s : Locks ι R) (i j : ι) : Prop :=
  ∃ r rest, s.todo i = r :: rest ∧ j ≠ i ∧ r ∈ s.held j

/-- The transaction has started and not ended. -/
def Running (s : Locks ι R) (i : ι) : Prop := s.held i ≠ [] ∨ s.todo i ≠ []

theorem WaitsFor.running {s : Locks ι R} {i j : ι} (h : s.WaitsFor i j) : s.Running j := by
  obtain ⟨r, rest, -, -, hr⟩ := h
  exact .inl (List.ne_nil_of_mem hr)

/-! ## The invariant -/

variable [PartialOrder R]

/-- Each transaction goes up, and no row is held twice. -/
structure Ordered (s : Locks ι R) : Prop where
  above : ∀ i, ∀ h ∈ s.held i, ∀ t ∈ s.todo i, h ≤ t
  sorted : ∀ i, (s.todo i).Pairwise (· ≤ ·)
  apart : ∀ i j r, r ∈ s.held i → r ∈ s.held j → i = j

variable [DecidableEq ι] {plan : List R → Prop} {s s' : Locks ι R} {a : Act ι R}

theorem ordered_step (hplan : ∀ rows, plan rows → rows.Pairwise (· ≤ ·)) (hs : Ordered s)
    (h : Step plan s a s') : Ordered s' := by
  cases h with
  | @start i rows hheld htodo hrows =>
    refine ⟨fun j h hh t ht => ?_, fun j => ?_, hs.apart⟩
    · by_cases hj : j = i
      · subst hj
        rw [hheld] at hh
        cases hh
      · simp only [Function.update_of_ne hj] at ht
        exact hs.above j h hh t ht
    · by_cases hj : j = i
      · subst hj
        simpa only [Function.update_self] using hplan rows hrows
      · simpa only [Function.update_of_ne hj] using hs.sorted j
  | @lock i r rest htodo hfree =>
    have hsorted := hs.sorted i
    rw [htodo, List.pairwise_cons] at hsorted
    refine ⟨fun j h hh t ht => ?_, fun j => ?_, fun j k q hj hk => ?_⟩
    · by_cases hj : j = i
      · subst hj
        simp only [Function.update_self, List.mem_cons] at hh ht
        rcases hh with rfl | hh
        · exact hsorted.1 t ht
        · exact hs.above j h hh t (htodo ▸ List.mem_cons_of_mem r ht)
      · simp only [Function.update_of_ne hj] at hh ht
        exact hs.above j h hh t ht
    · by_cases hj : j = i
      · subst hj
        simpa only [Function.update_self] using hsorted.2
      · simpa only [Function.update_of_ne hj] using hs.sorted j
    · -- a row that has just been locked was free
      by_cases hji : j = i
      · by_cases hki : k = i
        · exact hji.trans hki.symm
        · subst hji
          simp only [Function.update_self, Function.update_of_ne hki, List.mem_cons] at hj hk
          rcases hj with rfl | hj
          · exact absurd hk (hfree k hki)
          · exact hs.apart j k q hj hk
      · by_cases hki : k = i
        · subst hki
          simp only [Function.update_self, Function.update_of_ne hji, List.mem_cons] at hj hk
          rcases hk with rfl | hk
          · exact absurd hj (hfree j hji)
          · exact hs.apart j k q hj hk
        · simp only [Function.update_of_ne hji, Function.update_of_ne hki] at hj hk
          exact hs.apart j k q hj hk
  | @finish i =>
    refine ⟨fun j h hh t ht => ?_, fun j => ?_, fun j k q hj hk => ?_⟩
    · by_cases hj : j = i
      · subst hj
        simp only [Function.update_self] at hh
        cases hh
      · simp only [Function.update_of_ne hj] at hh ht
        exact hs.above j h hh t ht
    · by_cases hj : j = i
      · subst hj
        simp only [Function.update_self]
        exact List.Pairwise.nil
      · simpa only [Function.update_of_ne hj] using hs.sorted j
    · by_cases hji : j = i
      · subst hji
        simp only [Function.update_self] at hj
        cases hj
      · by_cases hki : k = i
        · subst hki
          simp only [Function.update_self] at hk
          cases hk
        · simp only [Function.update_of_ne hji, Function.update_of_ne hki] at hj hk
          exact hs.apart j k q hj hk

theorem ordered_reach (hplan : ∀ rows, plan rows → rows.Pairwise (· ≤ ·))
    (h : (lts (ι := ι) plan).Reach s) : Ordered s := by
  refine LTS.Reach.invariant (T := lts plan) (I := Ordered) ?_ ?_ h
  · rintro s rfl
    exact ⟨nofun, fun _ => List.Pairwise.nil, nofun⟩
  · intro s a s' hs ha
    exact ordered_step hplan hs ha

/-! ## Waiting -/

omit [DecidableEq ι] in
/-- Whoever is waited for, over any number of others, holds a row that is not below the row asked
for. -/
theorem Ordered.above_of_waits (hs : Ordered s) {i j : ι}
    (h : Relation.TransGen s.WaitsFor i j) :
    ∃ r rest, s.todo i = r :: rest ∧ ∃ q ∈ s.held j, r ≤ q := by
  induction h with
  | single h =>
    obtain ⟨r, rest, htodo, -, hr⟩ := h
    exact ⟨r, rest, htodo, r, hr, le_rfl⟩
  | tail _ h ih =>
    obtain ⟨r, rest, htodo, q, hq, hle⟩ := ih
    obtain ⟨r', rest', htodo', -, hr'⟩ := h
    refine ⟨r, rest, htodo, r', hr', hle.trans ?_⟩
    exact hs.above _ q hq r' (htodo' ▸ List.mem_cons_self)

/-- **No circle.** -/
theorem no_cycle (hplan : ∀ rows, plan rows → rows.Pairwise (· ≤ ·))
    (h : (lts (ι := ι) plan).Reach s) (i : ι) : ¬ Relation.TransGen s.WaitsFor i i := by
  intro hcycle
  have hs := ordered_reach hplan h
  obtain ⟨r, rest, htodo, q, hq, hle⟩ := hs.above_of_waits hcycle
  have heq : q = r := le_antisymm (hs.above i q hq r (htodo ▸ List.mem_cons_self)) hle
  -- so `i` holds the row that it waits for
  obtain ⟨j, hwait, -⟩ := Relation.TransGen.head'_iff.1 hcycle
  obtain ⟨r', rest', htodo', hne, hr'⟩ := hwait
  rw [htodo] at htodo'
  cases htodo'
  exact hne (hs.apart j i r hr' (heq ▸ hq))

/-- **Somebody can go on.** -/
theorem progress [Finite ι] (hplan : ∀ rows, plan rows → rows.Pairwise (· ≤ ·))
    (h : (lts (ι := ι) plan).Reach s) (hrun : ∃ i, s.Running i) :
    ∃ i, s.Running i ∧ ∀ j, ¬ s.WaitsFor i j := by
  let waited : ι → ι → Prop := fun i j => Relation.TransGen s.WaitsFor j i
  have htrans : IsTrans ι waited := ⟨fun _ _ _ h1 h2 => h2.trans h1⟩
  have hirrefl : Std.Irrefl waited := ⟨fun i => no_cycle hplan h i⟩
  have hwf : WellFounded waited := Finite.wellFounded_of_trans_of_irrefl waited
  obtain ⟨i, hi, hmin⟩ := hwf.has_min {i | s.Running i} hrun
  exact ⟨i, hi, fun j hwait => hmin j hwait.running (.single hwait)⟩

end Locks

end DevTools
