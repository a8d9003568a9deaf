import Mathlib.Data.Set.Lattice
import Mathlib.Order.Interval.Set.Basic
import Mathlib.Data.Int.Basic
import Mathlib.Data.Int.ConditionallyCompleteOrder
import Mathlib.Order.CompletePartialOrder
import Mathlib.Order.ConditionallyCompleteLattice.Basic
import Mathlib.Order.Interval.Set.Disjoint

/-!
# Exact covers

Clients of an allocator hold sets of items. `Exact claims S` says that the clients' sets are
pairwise disjoint and make up `S`: every item of `S` is held by exactly one client, and nothing
else is held. An allocator keeps `Exact` by handing a client without items a set that lies
outside `S` (`Exact.grant`).
-/

namespace DevTools

variable {ι α : Type*}

/-- The sets `claims i` partition `S`. -/
structure Exact (claims : ι → Set α) (S : Set α) : Prop where
  disjoint : ∀ i j, i ≠ j → Disjoint (claims i) (claims j)
  cover : ∀ x, x ∈ S ↔ ∃ i, x ∈ claims i

namespace Exact

variable {claims : ι → Set α} {S : Set α}

theorem empty (h : ∀ i, claims i = ∅) : Exact claims ∅ where
  disjoint i j _ := by simp [h]
  cover x := by simp [h]

theorem subset (h : Exact claims S) (i : ι) : claims i ⊆ S :=
  fun _ hx => (h.cover _).2 ⟨i, hx⟩

theorem unique (h : Exact claims S) {i j : ι} {x : α} (hi : x ∈ claims i) (hj : x ∈ claims j) :
    i = j := by
  by_contra hne
  exact Set.disjoint_left.1 (h.disjoint i j hne) hi hj

theorem existsUnique (h : Exact claims S) {x : α} (hx : x ∈ S) : ∃! i, x ∈ claims i := by
  obtain ⟨i, hi⟩ := (h.cover x).1 hx
  exact ⟨i, hi, fun j hj => h.unique hj hi⟩

theorem congr {claims' : ι → Set α} {S' : Set α} (h : Exact claims S)
    (hc : ∀ i, claims' i = claims i) (hS : S' = S) : Exact claims' S' := by
  obtain rfl : claims' = claims := funext hc
  rwa [hS]

/-- A client without items is granted a set `T` outside `S`. -/
theorem grant [DecidableEq ι] (h : Exact claims S) {i : ι} {T : Set α} (hi : claims i = ∅)
    (hT : Disjoint T S) {claims' : ι → Set α} {S' : Set α} (hself : claims' i = T)
    (hother : ∀ j, j ≠ i → claims' j = claims j) (hS : S' = S ∪ T) : Exact claims' S' := by
  refine ⟨fun j k hjk => ?_, fun x => ?_⟩
  · rcases eq_or_ne j i with rfl | hj
    · rw [hself, hother k hjk.symm]
      exact hT.mono_right (h.subset k)
    · rcases eq_or_ne k i with rfl | hk
      · rw [hself, hother j hj]
        exact (hT.mono_right (h.subset j)).symm
      · rw [hother j hj, hother k hk]
        exact h.disjoint j k hjk
  · rw [hS, Set.mem_union, h.cover]
    constructor
    · rintro (⟨j, hj⟩ | hx)
      · refine ⟨j, ?_⟩
        have hne : j ≠ i := by
          rintro rfl
          rw [hi] at hj
          exact hj
        rwa [hother j hne]
      · exact ⟨i, by rwa [hself]⟩
    · rintro ⟨j, hj⟩
      rcases eq_or_ne j i with rfl | hne
      · exact Or.inr (by rwa [hself] at hj)
      · exact Or.inl ⟨j, by rwa [hother j hne] at hj⟩

end Exact

end DevTools
