import Mathlib.GroupTheory.Perm.Cycle.Basic
import Mathlib.Data.List.Perm.Subperm

/-!
# Shuffling an array

An array of `n` entries is a function on indices. `shuffle` swaps the entry `i` with the entry
`pick i`, for `i` from 0 on.

* `shuffle_perm`: the entries stay the same, whatever is picked.
* `shuffle_cycle`: if what is picked always lies behind `i`, the entries are moved around in a
  single cycle.
-/

namespace DevTools

open Equiv

variable {α : Type*}

/-- `tmp = seq[i]; seq[i] = seq[j]; seq[j] = tmp;` -/
def swapAt (seq : Nat → α) (i j : Nat) : Nat → α :=
  Function.update (Function.update seq i (seq j)) j (seq i)

theorem swapAt_eq (seq : Nat → α) (i j : Nat) : swapAt seq i j = seq ∘ swap i j := by
  funext x
  simp only [swapAt, Function.comp_apply, swap_apply_def]
  split_ifs with hi hj
  · by_cases hij : i = j
    · simp [hi, hij]
    · simp [hi, hij]
  · simp [hj]
  · simp [hi, hj]

/-- The swaps for the indices `is`, one after the other. -/
def shuffle (pick : Nat → Nat) (is : List Nat) (seq : Nat → α) : Nat → α :=
  is.foldl (fun seq i => swapAt seq i (pick i)) seq

/-- Where the swaps take the entries from. -/
def shufflePerm (pick : Nat → Nat) : List Nat → Perm Nat
  | [] => 1
  | i :: is => swap i (pick i) * shufflePerm pick is

theorem shuffle_eq (pick : Nat → Nat) (is : List Nat) (seq : Nat → α) :
    shuffle pick is seq = seq ∘ shufflePerm pick is := by
  induction is generalizing seq with
  | nil => rfl
  | cons i is ih =>
    show shuffle pick is (swapAt seq i (pick i)) = _
    rw [ih, swapAt_eq]
    rfl

/-! ## The entries stay the same -/

/-- A permutation that only moves what is below `n` permutes the indices below `n`. -/
theorem perm_map_range {σ : Perm Nat} {n : Nat} (hfix : ∀ k, n ≤ k → σ k = k) :
    ((List.range n).map σ).Perm (List.range n) := by
  have hnodup : ((List.range n).map σ).Nodup := List.nodup_range.map σ.injective
  refine (hnodup.subperm ?_).perm_of_length_le (by simp)
  intro x hx
  obtain ⟨k, hk, rfl⟩ := List.mem_map.1 hx
  by_contra hout
  have hle : n ≤ σ k := by simpa using hout
  -- `σ k` is fixed, so it is `k`, which is below `n`
  have hk' : σ k = k := σ.injective (hfix (σ k) hle)
  rw [List.mem_range] at hk
  omega

theorem shufflePerm_fix {pick : Nat → Nat} {n : Nat} {is : List Nat}
    (h : ∀ i ∈ is, i < n ∧ pick i < n) {k : Nat} (hk : n ≤ k) : shufflePerm pick is k = k := by
  induction is with
  | nil => rfl
  | cons i is ih =>
    obtain ⟨⟨hi, hpick⟩, hrest⟩ := List.forall_mem_cons.1 h
    rw [shufflePerm, Perm.mul_apply, ih hrest]
    exact swap_apply_of_ne_of_ne (by omega) (by omega)

/-- **Nothing is lost or doubled.** -/
theorem shuffle_perm {pick : Nat → Nat} {n : Nat} {is : List Nat}
    (h : ∀ i ∈ is, i < n ∧ pick i < n) (seq : Nat → α) :
    ((List.range n).map (shuffle pick is seq)).Perm ((List.range n).map seq) := by
  rw [shuffle_eq, ← List.map_map]
  exact (perm_map_range fun k hk => shufflePerm_fix h hk).map seq

/-! ## A single cycle -/

/-- A point that is swapped into a cycle becomes a part of it. -/
theorem isCycleOn_swap_mul {f : Perm Nat} {s : Set Nat} (hs : s.Finite) (hf : f.IsCycleOn s)
    {k j : Nat} (hk : k ∉ s) (hfk : f k = k) (hj : j ∈ s) :
    (swap k j * f).IsCycleOn (insert k s) := by
  have hkj : k ≠ j := fun h => hk (h ▸ hj)
  -- what the new permutation does
  have hto : (swap k j * f) k = j := by rw [Perm.mul_apply, hfk, swap_apply_left]
  have hback : ∀ x, f x = j → (swap k j * f) x = k := by
    intro x hx
    rw [Perm.mul_apply, hx, swap_apply_right]
  have hstay : ∀ x ∈ s, f x ≠ j → (swap k j * f) x = f x := by
    intro x hx hxj
    have hxk : f x ≠ k := fun h => hk (h ▸ hf.apply_mem_iff.2 hx)
    rw [Perm.mul_apply, swap_apply_of_ne_of_ne hxk hxj]
  have hmem : ∀ x ∈ insert k s, (swap k j * f) x ∈ insert k s := by
    rintro x (rfl | hx)
    · rw [hto]
      exact Set.mem_insert_of_mem _ hj
    · by_cases hxj : f x = j
      · rw [hback x hxj]
        exact Set.mem_insert k s
      · rw [hstay x hx hxj]
        exact Set.mem_insert_of_mem k (hf.apply_mem_iff.2 hx)
  -- from `j` on it goes through the old cycle
  have hreach : ∀ n, (swap k j * f).SameCycle j ((f ^ n) j) := by
    intro n
    induction n with
    | zero => exact Perm.SameCycle.refl _ _
    | succ n ih =>
      have hin : (f ^ n) j ∈ s := by
        have hmaps := (hf.1.mapsTo.iterate n) hj
        rwa [← Perm.iterate_eq_pow]
      rw [pow_succ', Perm.mul_apply]
      by_cases hend : f ((f ^ n) j) = j
      · rw [hend]
      · rw [← hstay _ hin hend]
        exact ih.trans (Perm.sameCycle_apply_right.2 (Perm.SameCycle.refl _ _))
  have hone : ∀ x ∈ insert k s, (swap k j * f).SameCycle j x := by
    rintro x (rfl | hx)
    · have hstep : (swap x j * f).SameCycle x ((swap x j * f) x) :=
        Perm.sameCycle_apply_right.2 (Perm.SameCycle.refl _ _)
      rw [hto] at hstep
      exact hstep.symm
    · obtain ⟨n, -, rfl⟩ := hf.exists_pow_eq' hs hj hx
      exact hreach n
  refine ⟨((hs.insert k).injOn_iff_bijOn_of_mapsTo hmem).1 (Equiv.injective _).injOn, ?_⟩
  intro x hx y hy
  exact (hone x hx).symm.trans (hone y hy)

/-- The swaps with entries behind, from `k` on, make one cycle of what is between `k` and
`k + m`. -/
theorem shufflePerm_cycle {pick : Nat → Nat} {k m : Nat}
    (h : ∀ i, k ≤ i → i < k + m → i < pick i ∧ pick i ≤ k + m) :
    (shufflePerm pick (List.range' k m)).IsCycleOn (Set.Icc k (k + m)) ∧
      ∀ x, x < k → shufflePerm pick (List.range' k m) x = x := by
  induction m generalizing k with
  | zero =>
    refine ⟨?_, fun _ _ => rfl⟩
    rw [Nat.add_zero, Set.Icc_self]
    exact Perm.isCycleOn_singleton.2 rfl
  | succ m ih =>
    obtain ⟨hcycle, hfix⟩ := @ih (k + 1) (fun i hi hi' => by
      have := h i (by omega) (by omega)
      omega)
    obtain ⟨hlt, hle⟩ := h k le_rfl (by omega)
    rw [List.range'_succ, shufflePerm]
    refine ⟨?_, ?_⟩
    · have hset : Set.Icc k (k + (m + 1)) = insert k (Set.Icc (k + 1) (k + 1 + m)) := by
        ext x
        simp only [Set.mem_Icc, Set.mem_insert_iff]
        omega
      rw [hset]
      refine isCycleOn_swap_mul (Set.finite_Icc _ _) hcycle ?_ (hfix k (by omega)) ?_
      · simp
      · exact ⟨by omega, by omega⟩
    · intro x hx
      rw [Perm.mul_apply, hfix x (by omega)]
      exact swap_apply_of_ne_of_ne (by omega) (by omega)

/-- **One cycle.** -/
theorem shuffle_cycle {pick : Nat → Nat} {n : Nat}
    (h : ∀ i, i < n → i < pick i ∧ pick i ≤ n) :
    (shufflePerm pick (List.range n)).IsCycleOn (Set.Icc 0 n) := by
  have hcycle := (@shufflePerm_cycle pick 0 n fun i _ hi => by simpa using h i (by omega)).1
  rwa [Nat.zero_add, ← List.range_eq_range'] at hcycle

end DevTools
