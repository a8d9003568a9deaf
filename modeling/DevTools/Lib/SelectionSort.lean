import DevTools.Lib.Shuffle

/-!
# Selection sort of an index array

The array `seq` holds indices, and they are sorted by a key: in turn `i` the first entry with the
least key among those from `i` on is swapped to `i`.

* `selectionSort_mono`: the keys go up afterwards.
* `selectionSort_perm`: the first `n` entries are still the indices below `n`.
-/

namespace DevTools

variable {K : Type*} [LinearOrder K]

/-- The inner loop, with `turns` entries from `j` on left to look at: the entry `min_num` has the
least key so far, which is `tmp`. -/
def scan (key : Nat → K) (seq : Nat → Nat) : (turns j : Nat) → (tmp : K) → (min_num : Nat) → Nat
  | 0, _, _, min_num => min_num
  | turns + 1, j, tmp, min_num =>
    if key (seq j) < tmp then scan key seq turns (j + 1) (key (seq j)) j
    else scan key seq turns (j + 1) tmp min_num

/-- One turn of the outer loop. -/
def sortTurn (key : Nat → K) (n : Nat) (seq : Nat → Nat) (i : Nat) : Nat → Nat :=
  let min_num := scan key seq (n - (i + 1)) (i + 1) (key (seq i)) i
  if min_num ≠ i then
    Function.update (Function.update seq min_num (seq i)) i (seq min_num)
  else seq

/-- The indices below `n`, sorted. -/
def selectionSort (key : Nat → K) (n : Nat) : Nat → Nat :=
  (List.range (n - 1)).foldl (sortTurn key n) id

/-! ## One turn -/

theorem scan_spec (key : Nat → K) (seq : Nat → Nat) (turns j m : Nat) :
    let res := scan key seq turns j (key (seq m)) m
    (res = m ∨ j ≤ res ∧ res < j + turns) ∧ key (seq res) ≤ key (seq m) ∧
      ∀ b, j ≤ b → b < j + turns → key (seq res) ≤ key (seq b) := by
  induction turns generalizing j m with
  | zero => exact ⟨.inl rfl, le_rfl, fun b hb hb' => absurd hb' (by omega)⟩
  | succ turns ih =>
    simp only [scan]
    split_ifs with hlt
    · obtain ⟨hres, hle, hall⟩ := ih (j + 1) j
      refine ⟨.inr (by omega), hle.trans hlt.le, fun b hb hb' => ?_⟩
      by_cases hbj : b = j
      · exact hbj ▸ hle
      · exact hall b (by omega) (by omega)
    · obtain ⟨hres, hle, hall⟩ := ih (j + 1) m
      refine ⟨by omega, hle, fun b hb hb' => ?_⟩
      by_cases hbj : b = j
      · exact hbj ▸ hle.trans (not_lt.1 hlt)
      · exact hall b (by omega) (by omega)

/-- A turn swaps two entries from `i` on, and the first of them gets the least key. -/
theorem sortTurn_spec (key : Nat → K) {n i : Nat} (seq : Nat → Nat) (hi : i < n) :
    ∃ m, i ≤ m ∧ m < n ∧ sortTurn key n seq i = seq ∘ Equiv.swap i m ∧
      ∀ b, i ≤ b → b < n → key (seq m) ≤ key (seq b) := by
  obtain ⟨hres, hle, hall⟩ := scan_spec key seq (n - (i + 1)) (i + 1) i
  refine ⟨scan key seq (n - (i + 1)) (i + 1) (key (seq i)) i, by omega, by omega, ?_, ?_⟩
  · funext x
    simp only [sortTurn, Function.comp_apply, Equiv.swap_apply_def]
    split_ifs with hne hxi hxm hxi hxm
    · simp [hxi]
    · subst hxm
      rw [Function.update_of_ne hxi, Function.update_self]
    · rw [Function.update_of_ne hxi, Function.update_of_ne hxm]
    · rw [not_not.1 hne, hxi]
    · rw [hxm, not_not.1 hne]
    · rfl
  · intro b hb hb'
    by_cases hbi : b = i
    · exact hbi ▸ hle
    · exact hall b (by omega) (by omega)

/-! ## All turns -/

/-- After `i` turns: the entries are the indices below `n`, and the first `i` are in place. -/
structure SortedTo (key : Nat → K) (n i : Nat) (seq : Nat → Nat) : Prop where
  perm : ∃ σ : Equiv.Perm Nat, ⇑σ = seq ∧ ∀ k, n ≤ k → σ k = k
  mono : ∀ a b, a < i → a < b → b < n → key (seq a) ≤ key (seq b)

theorem sortedTo_turn {key : Nat → K} {n i : Nat} {seq : Nat → Nat} (h : SortedTo key n i seq)
    (hi : i < n) : SortedTo key n (i + 1) (sortTurn key n seq i) := by
  obtain ⟨m, him, hmn, heq, hmin⟩ := sortTurn_spec key seq hi
  obtain ⟨σ, hσ, hfix⟩ := h.perm
  rw [heq]
  refine ⟨⟨σ * Equiv.swap i m, ?_, ?_⟩, ?_⟩
  · funext x
    rw [← hσ]
    rfl
  · intro k hk
    rw [Equiv.Perm.mul_apply, Equiv.swap_apply_of_ne_of_ne (by omega) (by omega), hfix k hk]
  · -- the swap only moves entries from `i` on
    have hswap : ∀ b, i ≤ b → b < n → i ≤ Equiv.swap i m b ∧ Equiv.swap i m b < n := by
      intro b hb hb'
      rw [Equiv.swap_apply_def]
      split_ifs <;> omega
    intro a b ha hab hbn
    simp only [Function.comp_apply]
    by_cases hai : a = i
    · rw [hai, Equiv.swap_apply_left]
      obtain ⟨hge, hlt⟩ := hswap b (by omega) hbn
      exact hmin _ hge hlt
    · rw [Equiv.swap_apply_of_ne_of_ne hai (by omega : a ≠ m)]
      by_cases hbi : b < i
      · rw [Equiv.swap_apply_of_ne_of_ne (by omega) (by omega)]
        exact h.mono a b (by omega) hab hbn
      · obtain ⟨hge, hlt⟩ := hswap b (by omega) hbn
        exact h.mono a _ (by omega) (by omega) hlt

theorem sortedTo_turns (key : Nat → K) (n i : Nat) (hi : i < n ∨ i = 0) :
    SortedTo key n i ((List.range i).foldl (sortTurn key n) id) := by
  induction i with
  | zero => exact ⟨⟨1, rfl, fun _ _ => rfl⟩, fun a b ha => absurd ha (Nat.not_lt_zero a)⟩
  | succ i ih =>
    rw [List.range_succ, List.foldl_append]
    exact sortedTo_turn (ih (by omega)) (by omega)

/-- **The keys go up.** -/
theorem selectionSort_mono (key : Nat → K) {n a b : Nat} (hab : a < b) (hb : b < n) :
    key (selectionSort key n a) ≤ key (selectionSort key n b) :=
  (sortedTo_turns key n (n - 1) (by omega)).mono a b (by omega) hab hb

/-- **Nothing is lost or doubled.** -/
theorem selectionSort_perm (key : Nat → K) (n : Nat) :
    ((List.range n).map (selectionSort key n)).Perm (List.range n) := by
  obtain ⟨σ, hσ, hfix⟩ := (sortedTo_turns key n (n - 1) (by omega)).perm
  rw [selectionSort, ← hσ]
  exact perm_map_range hfix

end DevTools
