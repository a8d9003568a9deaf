import DevTools.Pvtrace.Symbols
import Mathlib.Data.Finset.Card

/-!
# Traces of calls

What a trace says by itself: which calls are open after some events (`openCalls`), how often one
function has called another (`callCount`), and which functions have been entered, in the order in
which they were first (`entered`). Everything is about histories, so the equations are for an event
that is appended.
-/

namespace DevTools.Pvtrace

/-! ## Traces -/

namespace Event

def isEnter : Event → Bool
  | enter _ => true
  | exit _ => false

@[simp] theorem isEnter_enter (a : Nat) : (enter a).isEnter = true := rfl

@[simp] theorem isEnter_exit (a : Nat) : (exit a).isEnter = false := rfl

/-- The address of an entry. -/
def entered? : Event → Option Nat
  | enter a => some a
  | exit _ => none

end Event

/-- The calls that are still open after some events, the innermost first. -/
def openCalls (t : List Event) : List Nat :=
  t.foldl (fun calls e => match e with
    | .enter a => a :: calls
    | .exit _ => calls.tail) []

/-- How often `g` is entered while the innermost open call is `f`. -/
def callCount (t : List Event) (f g : Nat) : Nat :=
  (List.range t.length).countP fun i =>
    t[i]? = some (.enter g) ∧ (openCalls (t.take i)).head? = some f

/-- A trace of 32-bit addresses in which every exit has its entry. -/
structure WellNested (t : List Event) : Prop where
  address : ∀ e ∈ t, 0 < e.address ∧ e.address < 2 ^ 32
  nesting : ∀ p, p <+: t → p.countP (!·.isEnter) ≤ p.countP (·.isEnter) ∧
    p.countP (·.isEnter) ≤ p.countP (!·.isEnter) + 500
  distinct : (t.map Event.address).toFinset.card ≤ 30000

variable {t : List Event} {e : Event} {a f g : Nat}

theorem WellNested.of_snoc (h : WellNested (t ++ [e])) : WellNested t where
  address e' he' := h.address e' (List.mem_append_left _ he')
  nesting p hp := h.nesting p (hp.trans (List.prefix_append ..))
  distinct := by
    refine le_trans (Finset.card_le_card ?_) h.distinct
    intro a ha
    rw [List.mem_toFinset, List.map_append, List.mem_append]
    exact .inl (List.mem_toFinset.mp ha)

theorem openCalls_enter : openCalls (t ++ [.enter a]) = a :: openCalls t := by
  rw [openCalls, List.foldl_append]
  rfl

theorem openCalls_exit : openCalls (t ++ [.exit a]) = (openCalls t).tail := by
  rw [openCalls, List.foldl_append]
  rfl

theorem callCount_snoc : callCount (t ++ [e]) f g =
    callCount t f g + if e = .enter g ∧ (openCalls t).head? = some f then 1 else 0 := by
  have hlast : (t ++ [e])[t.length]? = some e := by simp
  have hold : (List.range t.length).countP (fun i =>
      (t ++ [e])[i]? = some (.enter g) ∧ (openCalls ((t ++ [e]).take i)).head? = some f) =
      callCount t f g := by
    refine List.countP_congr fun i hi => ?_
    have hlt := List.mem_range.mp hi
    rw [List.getElem?_append_left hlt, List.take_append_of_le_length hlt.le]
  rw [callCount, List.length_append, List.length_singleton, List.range_succ, List.countP_append,
    hold, List.countP_singleton, hlast, List.take_left]
  simp

/-- The nesting depth. -/
theorem WellNested.length_openCalls (h : WellNested t) :
    (openCalls t).length + t.countP (!·.isEnter) = t.countP (·.isEnter) := by
  induction t using List.reverseRecOn with
  | nil => rfl
  | append_singleton t e ih =>
    have hdepth := ih h.of_snoc
    have hlast := (h.nesting _ List.prefix_rfl).1
    cases e with
    | enter a =>
      rw [openCalls_enter]
      simp [List.countP_append] at hdepth ⊢
      omega
    | exit a =>
      rw [openCalls_exit, List.length_tail]
      simp [List.countP_append] at hdepth hlast ⊢
      omega

/-! ## Entered addresses -/

/-- The entered addresses, each at its first entry. -/
def entered (t : List Event) : List Nat :=
  t.foldl (fun l e => match e with
    | .enter a => if a ∈ l then l else l ++ [a]
    | .exit _ => l) []

theorem entered_enter :
    entered (t ++ [.enter a]) = if a ∈ entered t then entered t else entered t ++ [a] := by
  rw [entered, List.foldl_append]
  rfl

theorem entered_exit : entered (t ++ [.exit a]) = entered t := by
  rw [entered, List.foldl_append]
  rfl

theorem mem_entered : a ∈ entered t ↔ .enter a ∈ t := by
  induction t using List.reverseRecOn with
  | nil => simp [entered]
  | append_singleton t e ih =>
    cases e with
    | enter b =>
      rw [entered_enter, List.mem_append, List.mem_singleton, Event.enter.injEq, ← ih]
      split_ifs with hb
      · refine ⟨.inl, ?_⟩
        intro hw
        rcases hw with ha | rfl
        · exact ha
        · exact hb
      · rw [List.mem_append, List.mem_singleton]
    | exit b => simp [entered_exit, ih]

theorem entered_nodup : (entered t).Nodup := by
  induction t using List.reverseRecOn with
  | nil => exact List.nodup_nil
  | append_singleton t e ih =>
    cases e with
    | enter a =>
      rw [entered_enter]
      split_ifs with ha
      · exact ih
      · exact ih.append (List.nodup_singleton a) (by simpa using ha)
    | exit a => rwa [entered_exit]

/-- The first slot of the table is for the first entry. -/
theorem head?_entered : (entered t).head? = (t.filterMap Event.entered?).head? := by
  induction t using List.reverseRecOn with
  | nil => rfl
  | append_singleton t e ih =>
    rw [List.filterMap_append, List.head?_append, ← ih]
    cases e with
    | enter a =>
      rw [entered_enter]
      split_ifs with ha
      · obtain ⟨b, l, hl⟩ := List.exists_cons_of_ne_nil (List.ne_nil_of_mem ha)
        rw [hl]
        rfl
      · rw [List.head?_append]
        rfl
    | exit a =>
      rw [entered_exit]
      simp [Event.entered?]

/-- What a list of functions is like that fits into the table. -/
structure Fits (l : List Nat) : Prop where
  nodup : l.Nodup
  pos : ∀ a ∈ l, 0 < a
  length : l.length ≤ MAX_FUNCTIONS

theorem WellNested.lt_of_entered (h : WellNested t) (ha : a ∈ entered t) : a < 2 ^ 32 :=
  (h.address _ (mem_entered.mp ha)).2

theorem WellNested.fits (h : WellNested t) : Fits (entered t) where
  nodup := entered_nodup
  pos _ ha := (h.address _ (mem_entered.mp ha)).1
  length := by
    rw [← List.toFinset_card_of_nodup entered_nodup]
    refine le_trans (Finset.card_le_card ?_) h.distinct
    intro a ha
    rw [List.mem_toFinset, mem_entered] at ha
    exact List.mem_toFinset.mpr (List.mem_map_of_mem ha)

theorem mem_entered_of_open (ha : a ∈ openCalls t) : a ∈ entered t := by
  rw [mem_entered]
  induction t using List.reverseRecOn with
  | nil => cases ha
  | append_singleton t e ih =>
    cases e with
    | enter b =>
      rw [openCalls_enter] at ha
      rcases List.mem_cons.mp ha with rfl | ha
      · simp
      · exact List.mem_append_left _ (ih ha)
    | exit b =>
      rw [openCalls_exit] at ha
      exact List.mem_append_left _ (ih (List.mem_of_mem_tail ha))

/-- Only entered functions call, and are called. -/
theorem mem_entered_of_callCount (h : callCount t f g ≠ 0) : f ∈ entered t ∧ g ∈ entered t := by
  obtain ⟨i, -, hi⟩ := List.countP_pos_iff.mp (Nat.pos_of_ne_zero h)
  obtain ⟨hg, hf⟩ := of_decide_eq_true hi
  have hopen := mem_entered.mp (mem_entered_of_open (List.mem_of_head? hf))
  exact ⟨mem_entered.mpr (List.mem_of_mem_take hopen), mem_entered.mpr (List.mem_of_getElem? hg)⟩

theorem mem_entered_of_counted (h : callCount t f g % 2 ^ 32 ≠ 0) :
    f ∈ entered t ∧ g ∈ entered t := by
  refine mem_entered_of_callCount ?_
  intro hzero
  rw [hzero] at h
  exact h rfl

end DevTools.Pvtrace
