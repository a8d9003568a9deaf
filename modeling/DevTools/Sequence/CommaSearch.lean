import DevTools.Sequence.DefaultWorker

/-!
# The search for the comma

`my_strchr` as the loop that it is, on a memory in which the string stands with its terminator and
anything after that.

**Theorem (`search_iff`).** It does what `strchr` does, without a look behind the terminator,
exactly if the string is empty or the character is in it. A reply without a comma ends `nextRange`
with "DBServer busy" exactly if it is empty.

The loop tests `*str`, which is the first character at every turn, and moves `ptr`. So only the
character that is searched for can stop it (`not_search`).
-/

namespace DevTools.Sequence

/-- The string stands at the start of the memory. -/
structure Stands (mem : Nat → Char) (str : List Char) : Prop where
  text : ∀ i, (h : i < str.length) → mem i = str.get ⟨i, h⟩
  terminator : mem str.length = NUL
  noNul : NUL ∉ str

/-- The turns of the loop of `my_strchr`, from a value of `ptr` on; `none` if it is not over after
`n` turns, `some none` for NULL. -/
def myStrchrLoop (mem : Nat → Char) (ch : Char) : Nat → Nat → Option (Option Nat)
  | 0, _ => none
  | n + 1, ptr =>
    if mem 0 = NUL then some none
    else if mem ptr = ch then some (some ptr)
    else myStrchrLoop mem ch n (ptr + 1)

variable {mem : Nat → Char} {str : List Char} {ch : Char} {n ptr : Nat}

theorem myStrchrLoop_found {p : Nat} (hstr : mem 0 ≠ NUL) (hbefore : ∀ i < p, mem (ptr + i) ≠ ch)
    (hp : mem (ptr + p) = ch) (hn : p < n) : myStrchrLoop mem ch n ptr = some (some (ptr + p)) := by
  induction p generalizing n ptr with
  | zero =>
    cases n with
    | zero => cases hn
    | succ n => simp [myStrchrLoop, hstr, show mem ptr = ch from hp]
  | succ p ih =>
    cases n with
    | zero => cases hn
    | succ n =>
      have hhere : mem ptr ≠ ch := hbefore 0 p.succ_pos
      have hshift : ∀ i, ptr + 1 + i = ptr + (i + 1) := fun i => by omega
      rw [myStrchrLoop, if_neg hstr, if_neg hhere, ih ?_ ?_ (Nat.lt_of_succ_lt_succ hn), hshift]
      · intro i hi
        rw [hshift]
        exact hbefore (i + 1) (Nat.succ_lt_succ hi)
      · rwa [hshift]

theorem myStrchrLoop_none (hstr : mem 0 ≠ NUL) (hnot : ∀ i < n, mem (ptr + i) ≠ ch) :
    myStrchrLoop mem ch n ptr = none := by
  induction n generalizing ptr with
  | zero => rfl
  | succ n ih =>
    have hhere : mem ptr ≠ ch := hnot 0 n.succ_pos
    rw [myStrchrLoop, if_neg hstr, if_neg hhere]
    apply ih
    intro i hi
    have hnext := hnot (i + 1) (Nat.succ_lt_succ hi)
    rwa [show ptr + 1 + i = ptr + (i + 1) by omega]

theorem Stands.first (h : Stands mem str) : mem 0 = NUL ↔ str = [] := by
  cases str with
  | nil => simpa using h.terminator
  | cons c str =>
    have hc : mem 0 = c := h.text 0 (Nat.succ_pos _)
    have hne : c ≠ NUL := fun hc => h.noNul (hc ▸ List.mem_cons_self)
    simp [hc, hne]

/-- `str.length + 1` turns look at no more than the terminator, and this is what comes of them. -/
theorem Stands.loop (h : Stands mem str) (hch : ch ≠ NUL) :
    myStrchrLoop mem ch (str.length + 1) 0 =
      if str = [] then some none else (str.idxOf? ch).map some := by
  by_cases hempty : str = []
  · rw [if_pos hempty, myStrchrLoop, if_pos (h.first.mpr hempty)]
  · have hstr : mem 0 ≠ NUL := fun h0 => hempty (h.first.mp h0)
    rw [if_neg hempty]
    by_cases hmem : ch ∈ str
    · obtain ⟨l, r, rfl, hl⟩ := List.eq_append_cons_of_mem hmem
      have hbefore : ∀ i < l.length, mem (0 + i) ≠ ch := by
        intro i hi
        rw [Nat.zero_add, h.text i (by rw [List.length_append]; omega)]
        simp only [List.get_eq_getElem, List.getElem_append_left hi]
        exact fun hc => hl (hc ▸ List.getElem_mem hi)
      have hp : mem (0 + l.length) = ch := by
        rw [Nat.zero_add, h.text l.length (by simp)]
        simp
      have hturns : l.length < (l ++ ch :: r).length + 1 := by
        rw [List.length_append]
        omega
      rw [myStrchrLoop_found hstr hbefore hp hturns, idxOf?_split hl, Nat.zero_add]
      rfl
    · have hnot : ∀ i < str.length + 1, mem (0 + i) ≠ ch := by
        intro i hi
        rw [Nat.zero_add]
        rcases Nat.lt_succ_iff_lt_or_eq.mp hi with hlt | rfl
        · rw [h.text i hlt]
          exact fun hc => hmem (hc ▸ List.get_mem str _)
        · rw [h.terminator]
          exact hch.symm
      rw [myStrchrLoop_none hstr hnot, List.idxOf?_eq_none_iff.mpr hmem]
      rfl

/-- `myStrchr` says what becomes of the loop: it ends before the terminator is passed, or not. -/
theorem myStrchr_eq_loop (h : Stands mem str) (hch : ch ≠ NUL) :
    myStrchr str ch = match myStrchrLoop mem ch (str.length + 1) 0 with
      | some (some pos) => .found pos
      | some none => .null
      | none => .overrun := by
  rw [h.loop hch]
  cases str with
  | nil => rfl
  | cons c str =>
    have hne : c.toNat ≠ 0 := by
      intro h0
      have hc : c = NUL := by rw [NUL, ← h0, Char.ofNat_toNat]
      exact h.noNul (hc ▸ List.mem_cons_self)
    simp only [myStrchr, hne, if_false, reduceCtorEq]
    cases (c :: str).idxOf? ch <;> rfl

/-- The loop ends with the position of the first such character or with NULL if there is none, as
`strchr` does, while `ptr` is not behind the terminator. -/
def Agrees (mem : Nat → Char) (str : List Char) (ch : Char) : Prop :=
  myStrchrLoop mem ch (str.length + 1) 0 = some (str.idxOf? ch)

instance (mem : Nat → Char) (str : List Char) (ch : Char) : Decidable (Agrees mem str ch) :=
  inferInstanceAs (Decidable (_ = _))

theorem agrees_iff (h : Stands mem str) (hch : ch ≠ NUL) :
    Agrees mem str ch ↔ str = [] ∨ ch ∈ str := by
  rw [Agrees, h.loop hch]
  by_cases hempty : str = []
  · simp [hempty]
  · by_cases hmem : ch ∈ str
    · obtain ⟨p, hp⟩ := Option.isSome_iff_exists.mp (List.isSome_idxOf?.mpr hmem)
      simp [hempty, hmem, hp]
    · simp [hempty, hmem, List.idxOf?_eq_none_iff.mpr hmem]

/-- What `nextRange` throws when there is no value in the reply. -/
def busy : SequenceException := ⟨"DBServer busy, Please contact the administrator!"⟩

theorem nextRange_busy_iff {name : String} {text : List Char} {out : DefaultSequenceWorker}
    (hname : name ≠ "") (hcomma : ',' ∉ text) :
    nextRange name (.row text) out = .error (.throws busy) ↔ ∀ c ∈ text.head?, c.toNat = 0 := by
  have hidx := List.idxOf?_eq_none_iff.mpr hcomma
  cases text with
  | nil => simp [nextRange, hname, parseReply, myStrchr, install, busy]
  | cons c text =>
    by_cases hc : c.toNat = 0
    · simp [nextRange, hname, parseReply, myStrchr, hc, install, busy]
    · simp [nextRange, hname, parseReply, myStrchr, hc, hidx]

/-- **`my_strchr` agrees with `strchr` on the strings that contain the character**, and on the
empty one. -/
theorem search_iff (h : Stands mem str) (hch : ch ≠ NUL) {name : String} {text : List Char}
    {out : DefaultSequenceWorker} (hname : name ≠ "") (hcomma : ',' ∉ text) :
    (Agrees mem str ch ↔ str = [] ∨ ch ∈ str) ∧
      (nextRange name (.row text) out = .error (.throws busy) ↔ ∀ c ∈ text.head?, c.toNat = 0) :=
  ⟨agrees_iff h hch, nextRange_busy_iff hname hcomma⟩

/-- A reply of one digit, with another text after its terminator. -/
def sampleReply (i : Nat) : Char := ['7', NUL, '4', ',', '1'].getD i NUL

theorem sampleReply_stands : Stands sampleReply ['7'] := by
  refine ⟨?_, by decide, by decide⟩
  intro i hi
  obtain rfl : i = 0 := Nat.lt_one_iff.mp hi
  rfl

/-- The comma of the text after the reply is found. -/
theorem not_search :
    Stands sampleReply ['7'] ∧ ¬ Agrees sampleReply ['7'] ',' ∧
      myStrchrLoop sampleReply ',' 4 0 = some (some 3) ∧
      nextRange "seq" (.row ['7']) ⟨"seq", 0, 0, 0, 0, 0, 0⟩ ≠ .error (.throws busy) :=
  ⟨sampleReply_stands, by decide, by decide, by decide⟩

theorem search_iff_sampleReply :
    (Agrees sampleReply ['7'] '7' ↔ (['7'] = [] ∨ '7' ∈ ['7'])) ∧
      (nextRange "seq" (.row []) ⟨"seq", 0, 0, 0, 0, 0, 0⟩ = .error (.throws busy) ↔
        ∀ c ∈ ([] : List Char).head?, c.toNat = 0) :=
  search_iff sampleReply_stands (by decide) (by decide) (by decide)

end DevTools.Sequence
