import DevTools.Daemon.LineBuffer
import Mathlib.Data.List.DropRight

/-!
# The values of the string keys

A value goes through four computations: the length of the line, the position behind the `=`, the
copy of the rest without a terminator, and the removal of blanks from its end, which puts the
terminators.

**Theorem (`extracted_iff`).** The line `K=V` is stored inside of `_line` and gives `V` without the
blanks at its end exactly if what is read of it fits into the buffer behind `line`, `V` has no
terminator in it, some character of what is read of `V` and the newline is not blank and the last
one is, and what is not read of `V` is blank.

Without a newline at the end of the file there is nothing to make a terminator from; a value that is
blank altogether lets `del_tail` run out of the block (`not_extracted`).
-/

namespace DevTools.Daemon

/-- The newline, unless the line is the last one and has none. -/
def ending : Bool → List Char
  | true => ['\n']
  | false => []

/-- The line `K=V`, as one `fgets` takes it from what is left of the file. -/
def keyLine (k : StringKey) (V : List Char) (newline : Bool) (rest : List Char) : List Char :=
  (fgets 2047 (k.key.toList ++ '=' :: (V ++ ending newline ++ rest))).1

/-- How much of a value is read. -/
def StringKey.room (k : StringKey) : Nat := 2047 - (k.key.toList.length + 1)

/-- The value is there, terminated in its block, and `del_tail` was always inside of it. -/
def Extracted (V : List Char) (block : Block) : Prop :=
  block.under = false ∧ NUL ∈ block.bytes ∧
    cstring block.bytes = V.rdropWhile fun c => c = ' ' || c = '\t'

instance (V : List Char) (block : Block) : Decidable (Extracted V block) :=
  inferInstanceAs (Decidable (_ ∧ _))

/-! ## `del_tail` -/

theorem delTailLoop_blanks {T B : List Char} (hB : ∀ b ∈ B, isBlank b = true) (Z : List Char) :
    delTailLoop (T.length + B.length) (T ++ B ++ Z) =
      delTailLoop T.length (T ++ (List.replicate B.length NUL ++ Z)) := by
  induction B using List.reverseRecOn generalizing Z with
  | nil => simp
  | append_singleton B b ih =>
    have hb : isBlank b = true := hB b (by simp)
    have hget : (T ++ (B ++ [b]) ++ Z).getD (T.length + B.length) NUL = b := by
      rw [List.getD_eq_getElem?_getD]
      simp
    have hset : (T ++ (B ++ [b]) ++ Z).set (T.length + B.length) NUL = T ++ B ++ (NUL :: Z) := by
      have hsplit : T ++ (B ++ [b]) ++ Z = (T ++ B) ++ b :: Z := by simp
      rw [hsplit, ← List.length_append, List.set_append_right _ _ le_rfl, Nat.sub_self,
        List.set_cons_zero]
    rw [List.length_append, List.length_singleton, ← Nat.add_assoc, delTailLoop, hget, if_pos hb,
      hset, ih (fun c hc => hB c (List.mem_append_left _ hc)), List.replicate_succ']
    simp

/-- The blanks at the end become terminators. -/
theorem delTail_eq (D : List Char) :
    delTail D = ⟨D.rdropWhile isBlank ++ List.replicate (D.rtakeWhile isBlank).length NUL,
      D.all isBlank⟩ := by
  have hsplit := List.rdropWhile_append_rtakeWhile (p := isBlank) (l := D)
  have hblank : ∀ b ∈ D.rtakeWhile isBlank, isBlank b = true := fun b => List.mem_rtakeWhile_imp
  have hloop := delTailLoop_blanks (T := D.rdropWhile isBlank) hblank []
  rw [List.append_nil, List.append_nil, ← List.length_append, hsplit] at hloop
  rw [delTail, hloop]
  by_cases hall : ∀ c ∈ D, isBlank c = true
  · rw [List.rdropWhile_eq_nil_iff.mpr hall, List.all_eq_true.mpr hall]
    rfl
  · have hne : D.rdropWhile isBlank ≠ [] := fun hnil => hall (List.rdropWhile_eq_nil_iff.mp hnil)
    have hlast := List.rdropWhile_last_not isBlank D hne
    have hfalse : D.all isBlank = false := by
      rw [← Bool.not_eq_true, List.all_eq_true]
      exact hall
    rw [hfalse]
    generalize D.rdropWhile isBlank = T at hne hlast
    obtain ⟨T, c, rfl⟩ := (List.eq_nil_or_concat' T).resolve_left hne
    rw [List.getLast_append_singleton] at hlast
    have hget : (T ++ [c] ++ List.replicate (D.rtakeWhile isBlank).length NUL).getD T.length NUL =
        c := by
      rw [List.getD_eq_getElem?_getD]
      simp
    rw [List.length_append, List.length_singleton, delTailLoop, hget, if_neg hlast]

/-! ## Trimming -/

theorem rdropWhile_blank {V : List Char} (hV : '\n' ∉ V) :
    V.rdropWhile (fun c => c = ' ' || c = '\t') = V.rdropWhile isBlank := by
  induction V using List.reverseRecOn with
  | nil => rfl
  | append_singleton V c ih =>
    rw [List.mem_append, List.mem_singleton, not_or] at hV
    have hc : (c = ' ' || c = '\t' : Bool) = isBlank c := by
      simp [isBlank, Ne.symm hV.2]
    rw [List.rdropWhile_concat, List.rdropWhile_concat, hc, ih hV.1]

/-- What is cut off a text does not change its trimmed form exactly if it is blank. -/
theorem rdropWhile_append_eq_iff {p : Char → Bool} (l r : List Char) :
    (l ++ r).rdropWhile p = l.rdropWhile p ↔ ∀ c ∈ r, p c = true := by
  induction r using List.reverseRecOn with
  | nil => simp
  | append_singleton r c ih =>
    rw [← List.append_assoc, List.rdropWhile_concat]
    by_cases hc : p c = true
    · rw [if_pos hc, ih]
      simp [or_imp, forall_and, hc]
    · rw [if_neg hc]
      constructor
      · intro heq
        have hlen := ( List.rdropWhile_prefix p l).length_le
        rw [← heq] at hlen
        simp at hlen
      · intro hall
        exact absurd (hall c (by simp)) hc

/-- The terminators are where the string ends. -/
theorem cstring_padded {T : List Char} (hT : NUL ∉ T) (n : Nat) :
    cstring (T ++ List.replicate n NUL) = T := by
  induction T with
  | nil => cases n <;> simp [cstring, List.replicate_succ]
  | cons c T ih =>
    rw [List.mem_cons, not_or] at hT
    have hrest := ih hT.2
    unfold cstring at hrest ⊢
    rw [List.cons_append, List.takeWhile_cons, if_pos (by simpa using Ne.symm hT.1), hrest]

theorem extracted_delTail_iff {V D : List Char} (hnul : NUL ∉ D) :
    Extracted V (delTail D) ↔ (∃ c ∈ D, isBlank c = false) ∧
      (∃ c, D.getLast? = some c ∧ isBlank c = true) ∧
      D.rdropWhile isBlank = V.rdropWhile fun c => c = ' ' || c = '\t' := by
  have hT : NUL ∉ D.rdropWhile isBlank :=
    fun h => hnul (( List.rdropWhile_prefix isBlank D).subset h)
  rw [Extracted, delTail_eq]
  refine and_congr ?_ (and_congr ?_ ?_)
  · simp only [List.all_eq_false]
    simp
  · rw [List.mem_append, or_iff_right hT, List.mem_replicate]
    have hlast : D.rtakeWhile isBlank ≠ [] ↔ ∃ c, D.getLast? = some c ∧ isBlank c = true := by
      rw [Ne, List.rtakeWhile_eq_nil_iff]
      constructor
      · intro h
        push Not at h
        obtain ⟨hne, hblank⟩ := h
        exact ⟨_, List.getLast?_eq_some_getLast hne, hblank⟩
      · intro h hall
        obtain ⟨c, hc, hblank⟩ := h
        have hne : D ≠ [] := fun hnil => by simp [hnil] at hc
        rw [List.getLast?_eq_some_getLast hne, Option.some.injEq] at hc
        exact hall hne (hc ▸ hblank)
    rw [← hlast]
    simp
  · rw [cstring_padded hT]

/-! ## A line with a string key -/

theorem branchOf_string (k : StringKey) (rest : List Char) :
    branchOf branches (k.key.toList ++ '=' :: rest) = .string k := by
  cases k <;> rfl

theorem key_plain (k : StringKey) :
    '=' ∉ k.key.toList ∧ '\n' ∉ k.key.toList ∧ NUL ∉ k.key.toList := by
  cases k <;> decide

theorem key_length (k : StringKey) : k.key.toList.length ≤ 25 := by
  cases k <;> decide

theorem equalOf_split {l : List Char} (hl : '=' ∉ l) (r : List Char) :
    equalOf (l ++ '=' :: r) = l.length + 1 := by
  have hloop : ∀ equal, equalLoop (l ++ '=' :: r) equal = equal + l.length := by
    induction l with
    | nil => intro equal; simp [equalLoop]
    | cons c l ih =>
      intro equal
      rw [List.mem_cons, not_or] at hl
      rw [List.cons_append, equalLoop, if_neg (Ne.symm hl.1), ih hl.2, List.length_cons]
      omega
  rw [equalOf, hloop, Nat.add_comm]

/-- What `fgets` takes of the line. -/
theorem keyLine_eq {k : StringKey} {V rest : List Char} {newline : Bool} (hV : '\n' ∉ V)
    (hrest : newline = false → rest = []) :
    keyLine k V newline rest = k.key.toList ++ '=' :: (V ++ ending newline).take k.room := by
  unfold keyLine
  have hplain : '\n' ∉ k.key.toList ++ '=' :: V := by
    simp only [List.mem_append, List.mem_cons, not_or]
    exact ⟨(key_plain k).2.1, by decide, hV⟩
  have hlen := key_length k
  have htake : ∀ W : List Char, (k.key.toList ++ '=' :: W).take 2047 =
      k.key.toList ++ '=' :: W.take k.room := by
    intro W
    have hroom : 2047 = k.key.toList.length + (k.room + 1) := by
      unfold StringKey.room
      omega
    rw [hroom, List.take_append, List.take_of_length_le (by omega), Nat.add_sub_cancel_left,
      List.take_succ_cons]
  cases newline with
  | true =>
    have hsplit : k.key.toList ++ '=' :: (V ++ ending true ++ rest) =
        (k.key.toList ++ '=' :: V) ++ '\n' :: rest := by simp [ending]
    have hline : (k.key.toList ++ '=' :: V) ++ ['\n'] =
        k.key.toList ++ '=' :: (V ++ ending true) := by simp [ending]
    rw [hsplit, fgets_fst_line hplain, hline, htake]
  | false =>
    rw [hrest rfl, ending, List.append_nil, List.append_nil, fgets_fst_of_notMem hplain, htake]

theorem cstring_line (k : StringKey) (D : List Char) :
    cstring (k.key.toList ++ '=' :: D) = k.key.toList ++ '=' :: cstring D := by
  obtain ⟨-, -, hkey⟩ := key_plain k
  have hplain : ∀ c ∈ k.key.toList, decide (c ≠ NUL) = true := by
    intro c hc
    exact decide_eq_true fun heq => hkey (heq ▸ hc)
  rw [cstring, List.takeWhile_append_of_pos hplain]
  rfl

/-- The block that the line leaves in `conf`. -/
theorem pass1_string (s : Parse) (k : StringKey) (D : List Char) :
    ∃ s', s.pass1 (k.key.toList ++ '=' :: D) = .ok s' ∧
      s'.strings k = some (delTail (cstring D)) := by
  obtain ⟨hequal, -, -⟩ := key_plain k
  have hline := cstring_line k D
  generalize cstring D = W at hline
  have hdrop : (k.key.toList ++ '=' :: W).drop (k.key.toList.length + 1) = W := by
    rw [List.drop_append, List.drop_of_length_le (by omega), Nat.add_sub_cancel_left]
    rfl
  have hlen : ¬ (k.key.toList ++ '=' :: W).length < k.key.toList.length + 1 := by
    simp
  have hread : ∀ t : Parse, t.readString k (k.key.toList ++ '=' :: W) =
      .ok { t with line := t.line + (k.key.toList.length + 1)
                   strings := Function.update t.strings k (some (delTail W)) } := by
    intro t
    rw [Parse.readString, equalOf_split hequal, hdrop, if_neg hlen]
  -- the main class also sets `tag`, before
  obtain ⟨t, ht⟩ : ∃ t : Parse, s.pass1 (k.key.toList ++ '=' :: D) =
      (t.readString k (k.key.toList ++ '=' :: W)).map fun s => { s with i := s.i + 1 } := by
    rw [Parse.pass1]
    simp only [hline, branchOf_string]
    cases k <;> exact ⟨_, rfl⟩
  rw [ht, hread]
  exact ⟨_, rfl, by simp⟩

/-- A string cannot hold a text with a terminator in it. -/
theorem not_extracted_of_mem {V : List Char} (hV : NUL ∈ V) (block : Block) :
    ¬ Extracted V block := by
  rintro ⟨-, -, heq⟩
  have hsplit := List.rdropWhile_append_rtakeWhile (p := fun c => c = ' ' || c = '\t') (l := V)
  rw [← hsplit, List.mem_append, ← heq] at hV
  rcases hV with hV | hV
  · have hne := List.mem_takeWhile_imp hV
    simp at hne
  · have hblank := List.mem_rtakeWhile_imp hV
    simp [NUL] at hblank

/-- What a line needs of the buffer. -/
theorem inBuffer_line {k : StringKey} {V rest : List Char} {newline : Bool} (hV : '\n' ∉ V)
    (hrest : newline = false → rest = []) (line : Nat) :
    InBuffer (line, keyLine k V newline rest) ↔
      line + min 2047 (k.key.toList.length + 1 + V.length + (ending newline).length) + 1 ≤
        2048 := by
  have hlen := key_length k
  rw [InBuffer, keyLine_eq hV hrest, List.length_append, List.length_cons, List.length_take,
    List.length_append, StringKey.room]
  omega

theorem extracted_value {s : Parse} {k : StringKey} {V rest : List Char} {newline : Bool}
    (hV : '\n' ∉ V) (hrest : newline = false → rest = []) :
    ∃ s' block, s.pass1 (keyLine k V newline rest) = .ok s' ∧ s'.strings k = some block ∧
      (Extracted V block ↔ NUL ∉ V ∧
        (∃ c ∈ (V ++ ending newline).take k.room, isBlank c = false) ∧
          (∃ c, ((V ++ ending newline).take k.room).getLast? = some c ∧ isBlank c = true) ∧
          ∀ c ∈ V.drop k.room, isBlank c = true) := by
  obtain ⟨s', hs', hblock⟩ := pass1_string s k ((V ++ ending newline).take k.room)
  refine ⟨s', _, (keyLine_eq hV hrest) ▸ hs', hblock, ?_⟩
  by_cases hnul : NUL ∈ V
  · exact iff_of_false (not_extracted_of_mem hnul _) fun h => h.1 hnul
  have hD : NUL ∉ (V ++ ending newline).take k.room := by
    intro h
    rcases List.mem_append.mp (List.mem_of_mem_take h) with h | h
    · exact hnul h
    · cases newline <;> simp [ending, NUL] at h
  rw [cstring_of_notMem hD, extracted_delTail_iff hD, rdropWhile_blank hV, and_iff_right hnul]
  refine and_congr_right fun _ => and_congr_right fun _ => ?_
  -- the newline is one more blank, and what does not fit is cut off
  have hending : ∀ c ∈ ending newline, isBlank c = true := by
    cases newline <;> simp [ending, isBlank]
  rw [List.take_append]
  have hcut : ∀ n, ∀ c ∈ (ending newline).take n, isBlank c = true :=
    fun n c hc => hending c (List.mem_of_mem_take hc)
  rw [(rdropWhile_append_eq_iff _ _).mpr (hcut _)]
  have hsplit := rdropWhile_append_eq_iff (p := isBlank) (V.take k.room) (V.drop k.room)
  rw [List.take_append_drop] at hsplit
  rw [← hsplit]
  exact eq_comm

/-- **When a string value is extracted.** -/
theorem extracted_iff {s : Parse} {k : StringKey} {V rest : List Char} {newline : Bool}
    (hV : '\n' ∉ V) (hrest : newline = false → rest = []) :
    ∃ s' block, s.pass1 (keyLine k V newline rest) = .ok s' ∧ s'.strings k = some block ∧
      (InBuffer (s.line, keyLine k V newline rest) ∧ Extracted V block ↔
        s.line + min 2047 (k.key.toList.length + 1 + V.length + (ending newline).length) + 1 ≤
          2048 ∧ NUL ∉ V ∧
        (∃ c ∈ (V ++ ending newline).take k.room, isBlank c = false) ∧
        (∃ c, ((V ++ ending newline).take k.room).getLast? = some c ∧ isBlank c = true) ∧
        ∀ c ∈ V.drop k.room, isBlank c = true) := by
  obtain ⟨s', block, hs', hblock, hvalue⟩ := @extracted_value s k V rest newline hV hrest
  exact ⟨s', block, hs', hblock, and_congr (inBuffer_line hV hrest s.line) hvalue⟩

/-- The first lines of a configuration, with nothing read before. -/
def sampleStart : Parse := Uninit.start ⟨fun _ => NUL, .INIT, false, 0⟩

/-- `wrapper.name=a` is the last line of the file, and has no newline: the name is not terminated.
An empty value lets `del_tail` look in front of the block. -/
theorem not_extracted :
    (∃ s' block, sampleStart.pass1 (fgets 2047 "wrapper.name=a".toList).1 = .ok s' ∧
      s'.strings .K_NAME = some block ∧ ¬ Extracted ['a'] block) ∧
    ∃ s' block, sampleStart.pass1 (fgets 2047 "wrapper.name=\n".toList).1 = .ok s' ∧
      s'.strings .K_NAME = some block ∧ ¬ Extracted [] block ∧ block.under = true := by
  refine ⟨⟨_, ⟨['a'], false⟩, rfl, by decide, by decide⟩, ⟨_, ⟨[NUL], true⟩, rfl, by decide, ?_⟩⟩
  exact ⟨by decide, rfl⟩

/-- A name with a blank in it and one after it. -/
theorem extracted_iff_sample :
    ∃ s' block, sampleStart.pass1 (keyLine .K_NAME "a b ".toList true []) = .ok s' ∧
      s'.strings .K_NAME = some block ∧ Extracted "a b ".toList block := by
  obtain ⟨s', block, hs', hblock, hiff⟩ :=
    @extracted_iff sampleStart .K_NAME "a b ".toList [] true (by decide) nofun
  have hdrop : "a b ".toList.drop StringKey.K_NAME.room = [] := rfl
  have hvalue := hiff.mpr ⟨by decide, by decide, ⟨'a', List.mem_cons_self, rfl⟩,
    ⟨'\n', rfl, rfl⟩, fun c hc => absurd (hdrop ▸ hc) List.not_mem_nil⟩
  exact ⟨s', block, hs', hblock, hvalue.2⟩

end DevTools.Daemon
