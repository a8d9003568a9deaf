import DevTools.Daemon.Properties

/-!
# The line buffer

`fgets` is told that there is room for 2048 bytes, wherever `line` points to. But every key with a
value leaves `line` behind its `=`, and nothing takes it back to `_line`, not even between the
passes.

**Theorem (`inBuffer_iff`).** All lines are stored inside of `_line` exactly if every line that is
read fits into what the keys before it have left of the buffer, and, should it come to the second
pass, into what all the keys have left.

A name of one character and a comment of 2040 are enough to write past the end (`not_inBuffer`).
-/

namespace DevTools.Daemon

/-- How far the lines move `line`. -/
def advance (lines : List (List Char)) : Nat := (lines.map advanceOf).sum

/-- Where the first pass puts its lines until it stops. -/
def writes1 (s : Parse) : List (List Char) → List (Nat × List Char)
  | [] => []
  | chunk :: rest => (s.line, chunk) :: match s.pass1 chunk with
    | .ok s => writes1 s rest
    | .error _ => []

/-- Where both passes put their lines, as positions in `_line`. -/
def writes (u : Uninit) (file : List Char) : List (Nat × List Char) :=
  writes1 u.start (linesOf file) ++ match parseProperties u file with
    | .ok (s, _) => (linesOf file).map fun chunk => (s.line, chunk)
    | .error _ => []

/-- The line and its terminator are inside of `_line`. -/
def InBuffer (w : Nat × List Char) : Prop := w.1 + w.2.length + 1 ≤ 2048

/-- The first pass gets to the end of these lines. -/
def Reached (u : Uninit) (lines : List (List Char)) : Prop :=
  ∃ s, lines.foldlM Parse.pass1 u.start = .ok s

/-! ## The lines that are read -/

theorem mem_writes1 {s : Parse} {lines : List (List Char)} {w : Nat × List Char} :
    w ∈ writes1 s lines ↔ ∃ before chunk after t, lines = before ++ chunk :: after ∧
      before.foldlM Parse.pass1 s = .ok t ∧ w = (t.line, chunk) := by
  induction lines generalizing s with
  | nil => simp [writes1]
  | cons chunk lines ih =>
    rw [writes1, List.mem_cons]
    constructor
    · intro h
      rcases h with rfl | h
      · exact ⟨[], chunk, lines, s, rfl, rfl, rfl⟩
      · cases hs : s.pass1 chunk with
        | error stop => simp [hs] at h
        | ok s' =>
          simp only [hs] at h
          obtain ⟨before, c, after, t, rfl, ht, rfl⟩ := ih.mp h
          exact ⟨chunk :: before, c, after, t, rfl, Parse.foldlM_pass1_cons.mpr ⟨s', hs, ht⟩, rfl⟩
    · intro h
      obtain ⟨before, c, after, t, hsplit, ht, rfl⟩ := h
      cases before with
      | nil =>
        obtain ⟨rfl, rfl⟩ := List.cons.inj hsplit
        cases ht
        exact Or.inl rfl
      | cons b before =>
        obtain ⟨rfl, rfl⟩ := List.cons.inj hsplit
        obtain ⟨s', hs, ht⟩ := Parse.foldlM_pass1_cons.mp ht
        right
        rw [hs]
        exact ih.mpr ⟨before, c, after, t, rfl, ht, rfl⟩

/-- After the lines of the first pass. -/
theorem line_of_foldlM {u : Uninit} {lines : List (List Char)} {s : Parse}
    (h : lines.foldlM Parse.pass1 u.start = .ok s) : s.line = advance lines := by
  obtain ⟨hline, -⟩ := Parse.foldlM_pass1_ok h
  rw [hline]
  exact Nat.zero_add _

/-- The lines of the first pass. -/
theorem writes1_inBuffer (u : Uninit) (lines : List (List Char)) :
    (∀ w ∈ writes1 u.start lines, InBuffer w) ↔
      ∀ before chunk after, lines = before ++ chunk :: after → Reached u before →
        advance before + chunk.length + 1 ≤ 2048 := by
  constructor
  · intro h before chunk after hsplit hreached
    obtain ⟨s, hs⟩ := hreached
    rw [← line_of_foldlM hs]
    exact h _ (mem_writes1.mpr ⟨before, chunk, after, s, hsplit, hs, rfl⟩)
  · intro h w hw
    obtain ⟨before, chunk, after, s, hsplit, hs, rfl⟩ := mem_writes1.mp hw
    unfold InBuffer
    rw [line_of_foldlM hs]
    exact h before chunk after hsplit ⟨s, hs⟩

/-- The lines of the second pass. -/
theorem writes2_inBuffer {u : Uninit} {file : List Char} {s : Parse} {fill : Fill}
    (h : parseProperties u file = .ok (s, fill)) :
    (∀ w ∈ (linesOf file).map fun chunk => (s.line, chunk), InBuffer w) ↔
      ∀ chunk ∈ linesOf file, advance (linesOf file) + chunk.length + 1 ≤ 2048 := by
  obtain ⟨hs, -, -⟩ := parseProperties_ok h
  rw [List.forall_mem_map, ← line_of_foldlM hs]
  rfl

/-- **When the buffer is enough.** -/
theorem inBuffer_iff (u : Uninit) (file : List Char) :
    (∀ w ∈ writes u file, InBuffer w) ↔
      (∀ before chunk after, linesOf file = before ++ chunk :: after → Reached u before →
        advance before + chunk.length + 1 ≤ 2048) ∧
      ((∃ result, parseProperties u file = .ok result) →
        ∀ chunk ∈ linesOf file, advance (linesOf file) + chunk.length + 1 ≤ 2048) := by
  unfold writes
  rw [List.forall_mem_append, writes1_inBuffer]
  refine and_congr_right fun _ => ?_
  cases hresult : parseProperties u file with
  | error stop => simp
  | ok result =>
    obtain ⟨s, fill⟩ := result
    simp only [writes2_inBuffer hresult]
    exact ⟨fun h _ => h, fun h => h ⟨_, rfl⟩⟩

/-! ## A file that does not fit -/

/-- A line with a name, and one more line. -/
theorem linesOf_name {rest : List Char} (hne : rest ≠ []) (hrest : '\n' ∉ rest) :
    ∃ more, linesOf ("wrapper.name=x\n".toList ++ rest) =
      "wrapper.name=x\n".toList :: rest.take 2047 :: more := by
  obtain ⟨c, cs, rfl⟩ := List.exists_cons_of_ne_nil hne
  refine ⟨fgetsAll 2047 (cs.length + 14) (fgets 2047 (c :: cs)).2, ?_⟩
  rw [← fgets_fst_of_notMem hrest]
  have hlength : ("wrapper.name=x\n".toList ++ c :: cs).length = cs.length + 14 + 2 := by simp
  have hfirst : fgets 2047 ("wrapper.name=x\n".toList ++ c :: cs) =
      ("wrapper.name=x\n".toList, c :: cs) := by rfl
  rw [linesOf, hlength, fgetsAll, hfirst, fgetsAll]
  · exact List.cons_ne_nil _ _
  · simp

/-- `wrapper.name=x`, and a comment of 2040 characters: 13 bytes of the buffer are gone. -/
theorem not_inBuffer :
    ∃ w ∈ writes ⟨fun _ => NUL, .INIT, false, 0⟩
      ("wrapper.name=x\n".toList ++ List.replicate 2040 '#'), ¬ InBuffer w := by
  have hlength : (List.replicate 2040 '#').length = 2040 := List.length_replicate
  have hplain : '\n' ∉ List.replicate 2040 '#' := by
    intro h
    exact absurd (List.eq_of_mem_replicate h) (by decide)
  generalize List.replicate 2040 '#' = comment at hlength hplain
  have hne : comment ≠ [] := by
    rintro rfl
    cases hlength
  obtain ⟨more, hlines⟩ := linesOf_name hne hplain
  refine ⟨(13, comment.take 2047), ?_, ?_⟩
  · rw [writes, hlines]
    exact List.mem_append_left _ (List.mem_cons_of_mem _ List.mem_cons_self)
  · rw [InBuffer, List.length_take, hlength]
    simp

end DevTools.Daemon
