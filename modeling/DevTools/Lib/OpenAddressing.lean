import Mathlib.Data.Finmap

/-!
# Open addressing

A table of slots in which every key has a window, the list of the slots where it may be. Lookup
takes the first slot of the window that holds the key; insertion takes the first slot that is blank
or holds the key, and deletion just blanks a slot.

* `Represents`: the slots hold a finite map, every key once and inside its window.
* `Shadowed`: a blank slot comes before a key's own in its window. Lookup still finds the key,
  insertion does not.
* `Tight`: no key is shadowed. Insertions keep a table tight, deletions do not.
-/

namespace DevTools

variable {κ β : Type}

/-- What each slot holds. -/
abbrev Slots (κ β : Type) := Nat → Option (κ × β)

namespace Slots

variable [DecidableEq κ]

/-- The slot holds the key. -/
def holds (s : Slots κ β) (k : κ) (i : Nat) : Bool :=
  match s i with
  | some e => e.1 = k
  | none => false

/-- The slot is blank or holds the key. -/
def stops (s : Slots κ β) (k : κ) (i : Nat) : Bool :=
  match s i with
  | some e => e.1 = k
  | none => true

theorem holds_iff {s : Slots κ β} {k : κ} {i : Nat} : s.holds k i ↔ ∃ v, s i = some (k, v) := by
  unfold holds
  split
  · rename_i e he
    simp [he, Prod.ext_iff]
  · rename_i he
    simp [he]

theorem stops_iff {s : Slots κ β} {k : κ} {i : Nat} :
    s.stops k i ↔ s i = none ∨ ∃ v, s i = some (k, v) := by
  unfold stops
  split
  · rename_i e he
    simp [he, Prod.ext_iff]
  · rename_i he
    simp [he]

end Slots

open Slots

/-- Every key is held once, in a slot of its window. -/
structure Represents [DecidableEq κ] (window : κ → List Nat) (s : Slots κ β)
    (f : Finmap fun _ : κ => β) : Prop where
  lookup : ∀ k v, f.lookup k = some v ↔ ∃ i, s i = some (k, v)
  inWindow : ∀ i k v, s i = some (k, v) → i ∈ window k
  unique : ∀ i j k v v', s i = some (k, v) → s j = some (k, v') → i = j

/-- A blank slot comes before the one that holds the key. -/
def Shadowed (window : κ → List Nat) (s : Slots κ β) (k : κ) : Prop :=
  ∃ before i after v, window k = before ++ i :: after ∧ i ∉ before ∧ s i = some (k, v) ∧
    ∃ j ∈ before, s j = none

/-- No key is shadowed. -/
def Tight (window : κ → List Nat) (s : Slots κ β) : Prop := ∀ k, ¬ Shadowed window s k

theorem Tight.empty {window : κ → List Nat} : Tight window (fun _ => none : Slots κ β) := by
  intro k hs
  obtain ⟨_, _, _, _, -, -, hi, -⟩ := hs
  cases hi

/-- What a changed slot and the others hold. -/
theorem update_eq_some {s : Slots κ β} {i j : Nat} {x : Option (κ × β)} {k' : κ} {v' : β} :
    Function.update s i x j = some (k', v') ↔
      (j = i ∧ x = some (k', v')) ∨ (j ≠ i ∧ s j = some (k', v')) := by
  by_cases hj : j = i
  · subst hj
    simp
  · simp [hj]

section

variable [DecidableEq κ] {window : κ → List Nat} {s : Slots κ β} {f : Finmap fun _ : κ => β}
  {k : κ} {v : β} {i : Nat}

/-! ## Searching -/

theorem Represents.find_holds (h : Represents window s f) (hk : f.lookup k = some v) :
    ∃ i, (window k).find? (s.holds k) = some i ∧ s i = some (k, v) := by
  obtain ⟨i, hi⟩ := (h.lookup k v).mp hk
  have hhit : ((window k).find? (s.holds k)).isSome := by
    rw [List.find?_isSome]
    exact ⟨i, h.inWindow i k v hi, holds_iff.mpr ⟨v, hi⟩⟩
  obtain ⟨j, hj⟩ := Option.isSome_iff_exists.mp hhit
  obtain ⟨v', hv'⟩ := holds_iff.mp (List.find?_some hj)
  obtain rfl := h.unique i j k v v' hi hv'
  exact ⟨i, hj, hi⟩

theorem Represents.find_holds_none (h : Represents window s f) (hk : f.lookup k = none) :
    (window k).find? (s.holds k) = none := by
  rw [List.find?_eq_none]
  intro i _ hi
  obtain ⟨v, hv⟩ := holds_iff.mp hi
  rw [(h.lookup k v).mpr ⟨i, hv⟩] at hk
  cases hk

/-- A key that is not there is stopped for by a blank slot. -/
theorem Represents.stops_of_absent (h : Represents window s f) (hk : f.lookup k = none)
    (hi : (window k).find? (s.stops k) = some i) : s i = none := by
  rcases stops_iff.mp (List.find?_some hi) with hblank | ⟨v, hv⟩
  · exact hblank
  · rw [(h.lookup k v).mpr ⟨i, hv⟩] at hk
    cases hk

/-- The search for a key that is there ends at its slot, unless that is shadowed. -/
theorem Represents.stops_of_present (h : Represents window s f) (hk : f.lookup k = some v)
    (hnot : ¬ Shadowed window s k) :
    ∃ i, (window k).find? (s.stops k) = some i ∧ s i = some (k, v) := by
  obtain ⟨i, hi⟩ := (h.lookup k v).mp hk
  obtain ⟨before, after, hwin, hbefore⟩ := List.eq_append_cons_of_mem (h.inWindow i k v hi)
  refine ⟨i, ?_, hi⟩
  rw [List.find?_eq_some_iff_append]
  refine ⟨stops_iff.mpr (.inr ⟨v, hi⟩), before, after, hwin, ?_⟩
  intro j hj
  rw [Bool.not_eq_true', Bool.eq_false_iff]
  intro hstop
  rcases stops_iff.mp hstop with hblank | ⟨v', hv'⟩
  · exact hnot ⟨before, i, after, v, hwin, hbefore, hi, j, hj, hblank⟩
  · exact hbefore (h.unique i j k v v' hi hv' ▸ hj)

/-- A shadowed key is not found: the search ends at a blank slot. -/
theorem Represents.stops_of_shadowed (h : Represents window s f) (hs : Shadowed window s k) :
    ∃ i, (window k).find? (s.stops k) = some i ∧ s i = none := by
  obtain ⟨before, i, after, v, hwin, hbefore, hi, j, hj, hblank⟩ := hs
  have hstop : (before.find? (s.stops k)).isSome := by
    rw [List.find?_isSome]
    exact ⟨j, hj, stops_iff.mpr (.inl hblank)⟩
  obtain ⟨j', hj'⟩ := Option.isSome_iff_exists.mp hstop
  refine ⟨j', ?_, ?_⟩
  · rw [hwin, List.find?_append, hj']
    rfl
  · rcases stops_iff.mp (List.find?_some hj') with hblank' | ⟨v', hv'⟩
    · exact hblank'
    · obtain rfl := h.unique i j' k v v' hi hv'
      exact absurd (List.mem_of_find?_eq_some hj') hbefore

/-! ## Updating -/

theorem Represents.empty : Represents window (fun _ => none : Slots κ β) ∅ where
  lookup k v := by simp
  inWindow i k v hi := by cases hi
  unique i j k v v' hi := by cases hi

theorem Represents.insert (h : Represents window s f) (hk : f.lookup k = none)
    (hi : s i = none) (hwin : i ∈ window k) :
    Represents window (Function.update s i (some (k, v))) (f.insert k v) where
  lookup k' v' := by
    by_cases hne : k' = k
    · subst hne
      rw [Finmap.lookup_insert]
      constructor
      · intro heq
        cases heq
        exact ⟨i, Function.update_self ..⟩
      · intro hw
        rcases hw with ⟨j, hj⟩
        rcases update_eq_some.mp hj with ⟨-, heq⟩ | ⟨-, hj⟩
        · cases heq
          rfl
        · rw [(h.lookup k' v').mpr ⟨j, hj⟩] at hk
          cases hk
    · rw [Finmap.lookup_insert_of_ne f hne, h.lookup]
      constructor
      · intro hw
        rcases hw with ⟨j, hj⟩
        refine ⟨j, update_eq_some.mpr (.inr ⟨?_, hj⟩)⟩
        rintro rfl
        rw [hi] at hj
        cases hj
      · intro hw
        rcases hw with ⟨j, hj⟩
        rcases update_eq_some.mp hj with ⟨-, heq⟩ | ⟨-, hj⟩
        · cases heq
          exact absurd rfl hne
        · exact ⟨j, hj⟩
  inWindow j k' v' hj := by
    rcases update_eq_some.mp hj with ⟨rfl, heq⟩ | ⟨-, hj⟩
    · cases heq
      exact hwin
    · exact h.inWindow j k' v' hj
  unique j j' k' v₁ v₂ hj hj' := by
    rcases update_eq_some.mp hj with ⟨rfl, heq⟩ | ⟨-, hold⟩
    · rcases update_eq_some.mp hj' with ⟨rfl, -⟩ | ⟨-, hj'⟩
      · rfl
      · cases heq
        rw [(h.lookup k v₂).mpr ⟨j', hj'⟩] at hk
        cases hk
    · rcases update_eq_some.mp hj' with ⟨rfl, heq⟩ | ⟨-, hj'⟩
      · cases heq
        rw [(h.lookup k v₁).mpr ⟨j, hold⟩] at hk
        cases hk
      · exact h.unique j j' k' v₁ v₂ hold hj'

theorem Represents.erase (h : Represents window s f) (hi : s i = some (k, v)) :
    Represents window (Function.update s i none) (f.erase k) where
  lookup k' v' := by
    by_cases hne : k' = k
    · subst hne
      rw [Finmap.lookup_erase]
      refine iff_of_false (by simp) ?_
      intro hw
      rcases hw with ⟨j, hj⟩
      rcases update_eq_some.mp hj with ⟨-, heq⟩ | ⟨hji, hj⟩
      · cases heq
      · exact hji (h.unique j i k' v' v hj hi)
    · rw [Finmap.lookup_erase_ne hne, h.lookup]
      constructor
      · intro hw
        rcases hw with ⟨j, hj⟩
        refine ⟨j, update_eq_some.mpr (.inr ⟨?_, hj⟩)⟩
        rintro rfl
        rw [hi] at hj
        cases hj
        exact hne rfl
      · intro hw
        rcases hw with ⟨j, hj⟩
        rcases update_eq_some.mp hj with ⟨-, heq⟩ | ⟨-, hj⟩
        · cases heq
        · exact ⟨j, hj⟩
  inWindow j k' v' hj := by
    rcases update_eq_some.mp hj with ⟨-, heq⟩ | ⟨-, hj⟩
    · cases heq
    · exact h.inWindow j k' v' hj
  unique j j' k' v₁ v₂ hj hj' := by
    rcases update_eq_some.mp hj with ⟨-, heq⟩ | ⟨-, hj⟩
    · cases heq
    · rcases update_eq_some.mp hj' with ⟨-, heq⟩ | ⟨-, hj'⟩
      · cases heq
      · exact h.unique j j' k' v₁ v₂ hj hj'

/-- Taking the first slot that stops the search shadows nothing. -/
theorem Tight.insert (ht : Tight window s) (hi : (window k).find? (s.stops k) = some i) :
    Tight window (Function.update s i (some (k, v))) := by
  intro k' hs
  obtain ⟨before, j, after, v', hwin, hbefore, hj, b, hb, hblank⟩ := hs
  have hbi : b ≠ i := by
    rintro rfl
    rw [Function.update_self] at hblank
    cases hblank
  rw [Function.update_of_ne hbi] at hblank
  rcases update_eq_some.mp hj with ⟨rfl, heq⟩ | ⟨-, hj⟩
  · -- the new key: the search would have stopped at the blank slot
    cases heq
    have hstop : (before.find? (s.stops k)).isSome := by
      rw [List.find?_isSome]
      exact ⟨b, hb, stops_iff.mpr (.inl hblank)⟩
    obtain ⟨b', hb'⟩ := Option.isSome_iff_exists.mp hstop
    rw [hwin, List.find?_append, hb'] at hi
    cases hi
    exact hbefore (List.mem_of_find?_eq_some hb')
  · exact ht k' ⟨before, j, after, v', hwin, hbefore, hj, b, hb, hblank⟩

end

end DevTools
