import DevTools.Lib.Shuffle

/-!
# The customers of the first orders

`InitPermutation` fills `nums` with the customer ids and swaps each entry with one behind it;
`GetPermutation` then returns them one after the other, one for each order of a district that is
loaded.

**Theorem (`customers_cycle`).** Whatever `rand` returns, `ORD_PER_DIST` calls return every customer
id once, and one more call aborts. Going from an order to the order with the number of its
customer leads through all orders: the permutation is a single cycle, and no order `o` is one of
customer `o`.
-/

namespace DevTools.Tpcc

def ORD_PER_DIST : Nat := 3000

/-- `min + (rand() % ((max - min) + 1))`. -/
def RandomNumber (rand min max : Nat) : Nat := min + rand % (max - min + 1)

theorem RandomNumber_range (rand : Nat) {min max : Nat} (h : min ≤ max) :
    min ≤ RandomNumber rand min max ∧ RandomNumber rand min max ≤ max := by
  unfold RandomNumber
  have hlt : rand % (max - min + 1) < max - min + 1 := Nat.mod_lt _ (Nat.succ_pos _)
  omega

/-- The static variables of `support.c`. -/
structure Permutation where
  nums : Nat → Nat
  perm_count : Nat

/-- What is swapped with `nums[i]`. -/
def pickBehind (rand : Nat → Nat) (i : Nat) : Nat :=
  RandomNumber (rand i) (i + 1) (ORD_PER_DIST - 1)

/-- `InitPermutation()`; `rand i` is what `rand()` returns in turn `i`. -/
def InitPermutation (rand : Nat → Nat) : Permutation where
  nums := shuffle (pickBehind rand) (List.range (ORD_PER_DIST - 1)) fun i => i + 1
  perm_count := 0

/-- `GetPermutation()`; `none` is `abort()`. -/
def GetPermutation (p : Permutation) : Option (Nat × Permutation) :=
  if p.perm_count ≥ ORD_PER_DIST then none
  else some (p.nums p.perm_count, { p with perm_count := p.perm_count + 1 })

/-- So many calls of `GetPermutation` in a row. -/
def getMany : Nat → Permutation → Option (List Nat × Permutation)
  | 0, p => some ([], p)
  | n + 1, p => do
    let (c_id, p) ← GetPermutation p
    let (c_ids, p) ← getMany n p
    return (c_id :: c_ids, p)

theorem getMany_eq (n : Nat) (p : Permutation) (h : p.perm_count + n ≤ ORD_PER_DIST) :
    getMany n p = some ((List.range' p.perm_count n).map p.nums,
      { p with perm_count := p.perm_count + n }) := by
  induction n generalizing p with
  | zero => rfl
  | succ n ih =>
    have hget : GetPermutation p =
        some (p.nums p.perm_count, { p with perm_count := p.perm_count + 1 }) :=
      if_neg (by omega)
    have hrest := ih { p with perm_count := p.perm_count + 1 } (by simp only; omega)
    simp only [getMany, hget, hrest, Option.bind_eq_bind, Option.bind_some, Option.pure_def,
      List.range'_succ, List.map_cons, Option.some.injEq, Prod.mk.injEq, Permutation.mk.injEq,
      true_and]
    omega

/-- **One cycle through all customers.** -/
theorem customers_cycle (rand : Nat → Nat) :
    ∃ c_ids p, getMany ORD_PER_DIST (InitPermutation rand) = some (c_ids, p) ∧
      GetPermutation p = none ∧ c_ids.Perm (List.range' 1 ORD_PER_DIST) ∧
      ∃ σ : Equiv.Perm Nat, σ.IsCycleOn (Set.Icc 0 (ORD_PER_DIST - 1)) ∧
        ∀ i, i < ORD_PER_DIST → c_ids[i]? = some (σ i + 1) ∧ σ i ≠ i := by
  have hpos : 1 < ORD_PER_DIST := by decide
  have hpick : ∀ i, i < ORD_PER_DIST - 1 →
      i < pickBehind rand i ∧ pickBehind rand i ≤ ORD_PER_DIST - 1 := by
    intro i hi
    have := RandomNumber_range (rand i) (show i + 1 ≤ ORD_PER_DIST - 1 by omega)
    unfold pickBehind
    omega
  have hcycle := shuffle_cycle hpick
  have hall : getMany ORD_PER_DIST (InitPermutation rand) =
      some ((List.range ORD_PER_DIST).map (InitPermutation rand).nums,
        { InitPermutation rand with perm_count := 0 + ORD_PER_DIST }) := by
    rw [getMany_eq _ _ (Nat.zero_add _).le, List.range_eq_range']
    rfl
  refine ⟨_, _, hall, ?_, ?_, shufflePerm (pickBehind rand) (List.range (ORD_PER_DIST - 1)), hcycle,
    ?_⟩
  · exact if_pos (Nat.zero_add _).ge
  · have hin : ∀ i ∈ List.range (ORD_PER_DIST - 1),
        i < ORD_PER_DIST ∧ pickBehind rand i < ORD_PER_DIST := by
      intro i hi
      rw [List.mem_range] at hi
      have := hpick i hi
      omega
    have hperm := shuffle_perm hin fun i => i + 1
    have hrange : (List.range ORD_PER_DIST).map (fun i => i + 1) = List.range' 1 ORD_PER_DIST := by
      rw [List.range'_eq_map_range]
      exact List.map_congr_left fun i _ => Nat.add_comm i 1
    rw [hrange] at hperm
    simpa only [InitPermutation] using hperm
  · intro i hi
    constructor
    · rw [List.getElem?_map, List.getElem?_range hi]
      simp only [InitPermutation, shuffle_eq, Option.map_some, Function.comp_apply]
    · refine hcycle.apply_ne ⟨0, ?_, 1, ?_, by decide⟩ ?_
      · exact ⟨le_rfl, Nat.zero_le _⟩
      · exact ⟨Nat.zero_le _, by omega⟩
      · exact ⟨Nat.zero_le _, by omega⟩

end DevTools.Tpcc
