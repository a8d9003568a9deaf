import DevTools.Pvtrace.Traces

/-!
# The call graph of a trace

**Theorem (`callGraph_iff`).** On a trace with well nested entries and exits, `pvtrace` emits the
call graph exactly if no function has called another one `2 ^ 31` times, `addr2line` can be
started for the first function, the name of the image fits its array, and `line` holds the command
for every function and what `addr2line` prints for it. The counters are `unsigned int`s that are
printed with `%d`.

`Describes` relates the stack, the table and the matrix to the events so far: the stack has the open
calls, the table has the entered addresses in the order in which they came, without a gap, and the
matrix counts modulo `2 ^ 32`.
-/

namespace DevTools.Pvtrace

variable {t : List Event} {e : Event} {a f g i : Nat} {popen : Nat → Option Bytes} {image : Bytes}
  {l : List Nat} {s s' : Globals}

/-! ## What `addr2line` prints -/

/-- What is promised of the outside: the image is named by a string, and `addr2line | c++filt`
prints lines of text, or nothing. -/
structure Promised (popen : Nat → Option Bytes) (image : Bytes) : Prop where
  image : (0 : UInt8) ∉ image
  no_nul : ∀ a text, popen a = some text → (0 : UInt8) ∉ text
  lines : ∀ a text, popen a = some text → text ≠ [] → ∃ c ∈ text, isLineEnd c

/-- The command for the address and the answer to it fit `line`. -/
def LineFits (popen : Nat → Option Bytes) (image : Bytes) (a : Nat) : Prop :=
  (addr2line image a).length < MAX_FUNCTION_NAME ∧
    ∀ text, popen a = some text → text.length < MAX_FUNCTION_NAME

/-- The answer has an end of line, or is empty and the command has one, which is then taken for the
answer. -/
def HasLine (popen : Nat → Option Bytes) (image : Bytes) (a : Nat) : Prop :=
  popen a = some [] → ∃ c ∈ image, isLineEnd c

/-- The characters of the command besides the name of the image. -/
theorem mem_addr2line {c : UInt8} (h : c ∈ addr2line image a) :
    c ∈ image ∨ c ≠ 0 ∧ isLineEnd c = false := by
  have hhex : ∀ c ∈ ascii (toHex a), c ≠ 0 ∧ isLineEnd c = false := by
    intro c hc
    obtain ⟨d, hd, rfl⟩ := List.mem_map.mp hc
    obtain ⟨hlow, hhigh⟩ : 48 ≤ d.toNat ∧ d.toNat ≤ 102 := by
      have hex := isHex_of_mem_toHex hd
      simp only [isHex, Bool.or_eq_true, Bool.and_eq_true, decide_eq_true_eq] at hex
      omega
    generalize d.toNat = n at hlow hhigh
    interval_cases n <;> decide
  have hfirst : ∀ c ∈ ascii "addr2line -e ".toList, c ≠ 0 ∧ isLineEnd c = false := by
    simp [ascii, isLineEnd]
  have hsecond : ∀ c ∈ ascii " -f -s 0x".toList, c ≠ 0 ∧ isLineEnd c = false := by
    simp [ascii, isLineEnd]
  have hthird : ∀ c ∈ ascii " |c++filt".toList, c ≠ 0 ∧ isLineEnd c = false := by
    simp [ascii, isLineEnd]
  simp only [addr2line, List.mem_append] at h
  rcases h with (((h | h) | h) | h) | h
  · exact .inr (hfirst c h)
  · exact .inl h
  · exact .inr (hsecond c h)
  · exact .inr (hhex c h)
  · exact .inr (hthird c h)

theorem nul_notMem_addr2line (himage : (0 : UInt8) ∉ image) : (0 : UInt8) ∉ addr2line image a := by
  intro h0
  rcases mem_addr2line h0 with h0 | ⟨hne, -⟩
  · exact himage h0
  · exact hne rfl

theorem lineEnd_addr2line :
    (∃ c ∈ addr2line image a, isLineEnd c) ↔ ∃ c ∈ image, isLineEnd c := by
  constructor
  · rintro ⟨c, hc, hend⟩
    rcases mem_addr2line hc with hc | ⟨-, hno⟩
    · exact ⟨c, hc, hend⟩
    · rw [hend] at hno
      cases hno
  · rintro ⟨c, hc, hend⟩
    exact ⟨c, by simp [addr2line, hc], hend⟩

/-- What is read after an answer without a NUL. When there is no answer, the command is still
there. -/
theorem hasLine_iff (hout : Promised popen image) {mem text more : Bytes}
    (hpopen : popen a = some text)
    (hread : readString (overwrite (overwrite mem (addr2line image a ++ [0])) text) =
      some (text ++ more)) :
    (∃ c ∈ text ++ more, isLineEnd c) ↔ HasLine popen image a := by
  by_cases hempty : text = []
  · subst hempty
    have hall : overwrite (overwrite mem (addr2line image a ++ [0])) [] =
        addr2line image a ++ 0 :: mem.drop (addr2line image a ++ [0]).length := by
      simp [overwrite]
    rw [hall, readString_append (nul_notMem_addr2line hout.image)] at hread
    rw [← Option.some_inj.mp hread, lineEnd_addr2line]
    exact ⟨fun hend _ => hend, fun hasLine => hasLine hpopen⟩
  · obtain ⟨c, hc, hend⟩ := hout.lines a text hpopen hempty
    refine iff_of_true ⟨c, List.mem_append_left _ hc, hend⟩ fun hnil => ?_
    rw [hpopen] at hnil
    exact absurd (Option.some_inj.mp hnil) hempty

/-- What is learned about an address that was not asked for before. -/
theorem translate_of_fits (hout : Promised popen image) (himage : s.imageName = image)
    (hline : Terminated s.line) (hname : s.funNameMap a = none) (hfits : LineFits popen image a) :
    ∃ line name, s.translateFunctionFromSymbol popen a =
        some { s with line, funNameMap := Function.update s.funNameMap a name } ∧
      Terminated line ∧ name.isSome = (popen a).isSome ∧
      ∀ block, name = some block → ((0 : UInt8) ∈ block ↔ HasLine popen image a) := by
  obtain ⟨hcommand, htext⟩ := hfits
  have hmax : MAX_FUNCTION_NAME = 250 := rfl
  have hcmd := terminated_command hline hcommand
  cases hpopen : popen a with
  | none =>
    have hkeep : Function.update s.funNameMap a none = s.funNameMap := by
      rw [← hname, Function.update_eq_self]
    refine ⟨overwrite s.line (addr2line image a ++ [0]), none, ?_, hcmd, rfl, nofun⟩
    simp only [Globals.translateFunctionFromSymbol, hname, himage, hpopen,
      if_neg (not_le.mpr hcommand), hkeep]
  | some text =>
    have hlen := htext text hpopen
    have hnone := hout.no_nul a text hpopen
    obtain ⟨more, hread, hstr⟩ := readString_overwrite hcmd hnone (by omega)
    refine ⟨overwrite (overwrite s.line (addr2line image a ++ [0])) text,
      some (copyName (text ++ more)), ?_, terminated_overwrite hcmd (by omega), rfl, ?_⟩
    · simp only [Globals.translateFunctionFromSymbol, hname, himage, hpopen,
        if_neg (not_le.mpr hcommand), List.take_of_length_le hlen.le, hread]
    · intro block hblock
      obtain rfl := Option.some_inj.mp hblock
      rw [zero_mem_copyName hstr]
      exact hasLine_iff hout hpopen hread

/-- Too long a command is written over the end of the array, and too long an answer read there. -/
theorem translate_eq_none (hout : Promised popen image) (himage : s.imageName = image)
    (hline : Terminated s.line) (hname : s.funNameMap a = none)
    (hfits : ¬ LineFits popen image a) : s.translateFunctionFromSymbol popen a = none := by
  have hmax : MAX_FUNCTION_NAME = 250 := rfl
  by_cases hcommand : (addr2line image a).length < MAX_FUNCTION_NAME
  · obtain ⟨text, hpopen, hlong⟩ : ∃ text, popen a = some text ∧
        MAX_FUNCTION_NAME ≤ text.length := by
      by_contra hno
      push Not at hno
      exact hfits ⟨hcommand, hno⟩
    have hnone : readString (overwrite (overwrite s.line (addr2line image a ++ [0]))
        (text.take MAX_FUNCTION_NAME)) = none := by
      obtain ⟨mem, hlen, hmem⟩ := terminated_command hline hcommand
      have hdrop : (mem ++ [0]).drop (text.take MAX_FUNCTION_NAME).length = [] :=
        List.drop_eq_nil_of_le (by
          rw [List.length_take, List.length_append, List.length_singleton]
          omega)
      rw [hmem, overwrite, hdrop, List.append_nil]
      exact if_neg fun h0 => hout.no_nul a text hpopen (List.take_subset _ _ h0)
    simp only [Globals.translateFunctionFromSymbol, hname, himage, hpopen, hnone,
      if_neg (not_le.mpr hcommand)]
  · simp only [Globals.translateFunctionFromSymbol, hname, himage, if_pos (not_lt.mp hcommand)]

/-! ## The tables and the events -/

/-- The globals after some events, with the functions `l` in the table. -/
structure Describes (popen : Nat → Option Bytes) (image : Bytes) (l : List Nat) (t : List Event)
    (s : Globals) : Prop where
  imageName : s.imageName = image
  line : Terminated s.line
  stack : s.stack = openCalls t
  functions : ∀ i, s.functions i = l.getD i 0
  calls : ∀ {i j f g}, l[i]? = some f → l[j]? = some g → s.calls i j = callCount t f g % 2 ^ 32
  unused : ∀ {i j}, l.length ≤ i ∨ l.length ≤ j → s.calls i j = 0
  names : ∀ a, (s.funNameMap a).isSome = (decide (a ∈ l) && (popen a).isSome)
  printable : ∀ a block, s.funNameMap a = some block → ((0 : UInt8) ∈ block ↔ HasLine popen image a)
  totals : s.totals = fun _ => 0

theorem describes_init (h : image.length < MAX_FUNCTION_NAME) :
    ∃ s, Globals.init image = some s ∧ Describes popen image (entered []) [] s := by
  refine ⟨_, if_pos h, rfl, terminated_init, rfl, ?_, ?_, fun _ => rfl, ?_, nofun, rfl⟩
  · intro i
    simp [entered]
  · intro i j f g hi
    simp [entered] at hi
  · intro a
    simp [entered]

theorem Describes.functions_of_mem (h : Describes popen image l t s) (hi : l[i]? = some a) :
    s.functions i = a := by
  rw [h.functions, List.getD_eq_getElem?_getD, hi]
  rfl

theorem Describes.functions_eq_zero_iff (h : Describes popen image l t s) (hl : Fits l) :
    s.functions i = 0 ↔ l.length ≤ i := by
  rw [h.functions, List.getD_eq_getElem?_getD]
  constructor
  · intro hzero
    by_contra hlt
    rw [List.getElem?_eq_getElem (not_le.mp hlt), Option.getD_some] at hzero
    have hpos := hl.pos _ (List.getElem_mem (not_le.mp hlt))
    rw [hzero] at hpos
    cases hpos
  · intro hle
    rw [List.getElem?_eq_none hle]
    rfl

theorem Fits.index_unique (hl : Fits l) {j : Nat} (hi : l[i]? = some a) (hj : l[j]? = some a) :
    i = j := by
  obtain ⟨hlt, -⟩ := List.getElem?_eq_some_iff.mp hi
  exact (List.getElem?_inj hlt hl.nodup).mp (hi.trans hj.symm)

/-- A search ends at the first slot that is empty or has the address. -/
theorem Describes.find_slot (h : Describes popen image l t s) (hl : Fits l)
    (hroom : i < MAX_FUNCTIONS) (hle : i ≤ l.length) (hstop : s.functions i = a ∨ s.functions i = 0)
    (hbefore : ∀ j < i, l[j]? ≠ some a) {p : Nat → Bool}
    (hp : ∀ j, p j = true ↔ s.functions j = a ∨ s.functions j = 0) : slots.find? p = some i := by
  rw [slots, List.find?_range'_eq_some]
  refine ⟨(hp i).mpr hstop, ?_, ?_⟩
  · rw [List.mem_range'_1]
    omega
  · intro j _ hj
    have hjlt : j < l.length := by omega
    have hj' := List.getElem?_eq_getElem hjlt
    rw [Bool.not_eq_true', Bool.eq_false_iff]
    intro hpj
    rcases (hp j).mp hpj with hja | hj0
    · rw [h.functions_of_mem hj'] at hja
      exact hbefore j hj (hja ▸ hj')
    · exact absurd ((h.functions_eq_zero_iff hl).mp hj0) (not_le.mpr hjlt)

theorem Describes.find_entered (h : Describes popen image l t s) (hl : Fits l) (hi : l[i]? = some a)
    {p : Nat → Bool} (hp : ∀ j, p j = true ↔ s.functions j = a ∨ s.functions j = 0) :
    slots.find? p = some i := by
  obtain ⟨hlt, -⟩ := List.getElem?_eq_some_iff.mp hi
  refine h.find_slot hl (hlt.trans_le hl.length) hlt.le (.inl (h.functions_of_mem hi)) ?_ hp
  intro j hj hja
  exact hj.ne (hl.index_unique hja hi)

theorem Describes.find_new (h : Describes popen image l t s) (hl : Fits l) (ha : a ∉ l)
    (hroom : l.length < MAX_FUNCTIONS) {p : Nat → Bool}
    (hp : ∀ j, p j = true ↔ s.functions j = a ∨ s.functions j = 0) :
    slots.find? p = some l.length := by
  have hempty := (h.functions_eq_zero_iff hl).mpr (le_refl l.length)
  refine h.find_slot hl hroom le_rfl (.inr hempty) ?_ hp
  intro j _ hja
  exact ha (List.mem_of_getElem? hja)

theorem Describes.lookupSymbol_eq (h : Describes popen image l t s) (hl : Fits l)
    (hi : l[i]? = some a) : s.lookupSymbol a = some i := by
  have hfind := h.find_entered hl hi (p := fun j => s.functions j = 0 ∨ s.functions j = a)
    (fun j => by simp [or_comm])
  have hne : s.functions i ≠ 0 := by
    rw [h.functions_of_mem hi]
    exact (hl.pos a (List.mem_of_getElem? hi)).ne'
  simp only [Globals.lookupSymbol, hfind, hne, if_false]

/-! ## One event -/

theorem Describes.name_of_notMem (h : Describes popen image l t s) (ha : a ∉ l) :
    s.funNameMap a = none := by
  rw [← Option.isNone_iff_eq_none, ← Option.not_isSome, h.names]
  simp [ha]

/-- A new function takes the first empty slot. -/
theorem Describes.insert (h : Describes popen image (entered t) t s) (hout : Promised popen image)
    (ha : a ∉ entered t) (hfits : LineFits popen image a) :
    ∃ s', Globals.translateFunctionFromSymbol popen a
        { s with functions := Function.update s.functions (entered t).length a } = some s' ∧
      Describes popen image (entered t ++ [a]) t s' := by
  have hname := h.name_of_notMem ha
  obtain ⟨line, name, hsame, hline, hsome, hblock⟩ := translate_of_fits
    (s := { s with functions := Function.update s.functions (entered t).length a }) hout
    h.imageName h.line hname hfits
  have hnew : ∀ {i f}, (entered t ++ [a])[i]? = some f →
      (entered t)[i]? = some f ∨ (i = (entered t).length ∧ f = a) := by
    intro i f hi
    rw [List.getElem?_append] at hi
    split_ifs at hi with hlt
    · exact .inl hi
    · rw [List.getElem?_singleton] at hi
      split_ifs at hi with hi0
      exact .inr ⟨by omega, (Option.some_inj.mp hi).symm⟩
  refine ⟨_, hsame, h.imageName, hline, h.stack, ?_, ?_, ?_, ?_, ?_, h.totals⟩
  · intro i
    simp only [List.getD_eq_getElem?_getD]
    rcases lt_trichotomy i (entered t).length with hi | rfl | hi
    · rw [Function.update_of_ne hi.ne, h.functions, List.getElem?_append_left hi,
        List.getD_eq_getElem?_getD]
    · simp
    · rw [Function.update_of_ne hi.ne', h.functions, List.getD_eq_getElem?_getD,
        List.getElem?_eq_none hi.le, List.getElem?_eq_none (by simpa using Nat.succ_le_of_lt hi)]
  · intro i j f g hi hj
    -- the new row and the new column are still empty
    have hzero : f = a ∨ g = a → callCount t f g = 0 := by
      intro hor
      by_contra hne
      obtain ⟨hf, hg⟩ := mem_entered_of_callCount hne
      rcases hor with rfl | rfl
      · exact ha hf
      · exact ha hg
    rcases hnew hi with hi | ⟨rfl, rfl⟩
    · rcases hnew hj with hj | ⟨rfl, rfl⟩
      · exact h.calls hi hj
      · rw [hzero (.inr rfl)]
        exact h.unused (.inr le_rfl)
    · rw [hzero (.inl rfl)]
      exact h.unused (.inl le_rfl)
  · intro i j hij
    rw [List.length_append, List.length_singleton] at hij
    exact h.unused (by omega)
  · intro b
    by_cases hb : b = a
    · subst hb
      simp [hsome]
    · simp [hb, h.names]
  · intro b block hb
    by_cases hba : b = a
    · subst hba
      simp only [Function.update_self] at hb
      exact hblock block hb
    · simp only [Function.update_of_ne hba] at hb
      exact h.printable b block hb

theorem Describes.addSymbol (h : Describes popen image (entered t) t s)
    (hout : Promised popen image) (ht : WellNested (t ++ [.enter a]))
    (hfits : a ∉ entered t → LineFits popen image a) : ∃ s', s.addSymbol popen a = some s' ∧
      Describes popen image (entered (t ++ [.enter a])) t s' := by
  have htable := ht.of_snoc.fits
  have hpos := (ht.address (.enter a) (by simp)).1
  have htable' := ht.fits
  rw [entered_enter] at htable' ⊢
  unfold Globals.addSymbol
  split_ifs at htable' ⊢ with ha
  · obtain ⟨i, hi⟩ := List.mem_iff_getElem?.mp ha
    rw [h.find_entered htable hi (by simp)]
    simp only [h.functions_of_mem hi, if_true]
    exact ⟨s, rfl, h⟩
  · have hroom : (entered t).length < MAX_FUNCTIONS := by
      simpa [Nat.succ_le_iff] using htable'.length
    rw [h.find_new htable ha hroom (by simp)]
    have hne : s.functions (entered t).length ≠ a := by
      rw [(h.functions_eq_zero_iff htable).mpr le_rfl]
      exact hpos.ne
    simp only [hne, if_false]
    exact h.insert hout ha (hfits ha)

/-- A new function whose command or answer does not fit ends the program. -/
theorem Describes.addSymbol_eq_none (h : Describes popen image (entered t) t s)
    (hout : Promised popen image) (ht : WellNested (t ++ [.enter a])) (ha : a ∉ entered t)
    (hfits : ¬ LineFits popen image a) : s.addSymbol popen a = none := by
  have htable := ht.of_snoc.fits
  have hpos := (ht.address (.enter a) (by simp)).1
  have hroom : (entered t).length < MAX_FUNCTIONS := by
    have htable' := ht.fits
    rw [entered_enter, if_neg ha] at htable'
    simpa [Nat.succ_le_iff] using htable'.length
  have hne : s.functions (entered t).length ≠ a := by
    rw [(h.functions_eq_zero_iff htable).mpr le_rfl]
    exact hpos.ne
  unfold Globals.addSymbol
  rw [h.find_new htable ha hroom (by simp)]
  simp only [hne, if_false]
  exact translate_eq_none hout h.imageName h.line (h.name_of_notMem ha) hfits

/-- The pair of the innermost call and the new one is counted. -/
theorem Describes.addCallTrace (h : Describes popen image l t s) (hl : Fits l) (ha : a ∈ l)
    (hopen : ∀ b ∈ openCalls t, b ∈ l) : ∃ calls, s.addCallTrace a = some { s with calls } ∧
      (∀ {i j f g}, l[i]? = some f → l[j]? = some g →
        calls i j = callCount (t ++ [.enter a]) f g % 2 ^ 32) ∧
      ∀ {i j}, l.length ≤ i ∨ l.length ≤ j → calls i j = 0 := by
  have hnum : s.stackNumElems = (openCalls t).length := congrArg List.length h.stack
  have htop : s.stackTop = (openCalls t).head? := congrArg List.head? h.stack
  unfold Globals.addCallTrace
  rw [hnum, htop]
  cases hcalls : openCalls t with
  | nil =>
    refine ⟨s.calls, rfl, ?_, h.unused⟩
    intro i j f g hi hj
    rw [callCount_snoc, hcalls, h.calls hi hj]
    simp
  | cons f₀ rest =>
    obtain ⟨i₀, hi₀⟩ := List.mem_iff_getElem?.mp (hopen f₀ (hcalls ▸ List.mem_cons_self))
    obtain ⟨j₀, hj₀⟩ := List.mem_iff_getElem?.mp ha
    simp only [List.length_cons, ne_eq, Nat.add_one_ne_zero, not_false_eq_true, if_true,
      List.head?_cons, Option.bind_eq_bind, Option.bind_some, h.lookupSymbol_eq hl hi₀,
      h.lookupSymbol_eq hl hj₀]
    refine ⟨_, rfl, ?_, ?_⟩
    · intro i j f g hi hj
      rw [callCount_snoc, hcalls]
      by_cases hi' : i = i₀
      · subst hi'
        rw [hi, Option.some_inj] at hi₀
        subst hi₀
        by_cases hj' : j = j₀
        · subst hj'
          rw [hj, Option.some_inj] at hj₀
          subst hj₀
          simp [h.calls hi hj]
        · have hg : g ≠ a := by
            rintro rfl
            exact hj' (hl.index_unique hj hj₀)
          simp [hj', h.calls hi hj, Ne.symm hg]
      · have hf : f ≠ f₀ := by
          rintro rfl
          exact hi' (hl.index_unique hi hi₀)
        simp [hi', h.calls hi hj, Ne.symm hf]
    · intro i j hij
      obtain ⟨hi₀lt, -⟩ := List.getElem?_eq_some_iff.mp hi₀
      obtain ⟨hj₀lt, -⟩ := List.getElem?_eq_some_iff.mp hj₀
      by_cases hi' : i = i₀
      · subst hi'
        have hj' : j ≠ j₀ := by omega
        simp [hj', h.unused hij]
      · simp [hi', h.unused hij]

/-- One turn of the loop. -/
theorem Describes.step (h : Describes popen image (entered t) t s) (hout : Promised popen image)
    (ht : WellNested (t ++ [e])) (hfits : ∀ a ∈ entered (t ++ [e]), LineFits popen image a) :
    ∃ s', s.step popen e = some s' ∧ Describes popen image (entered (t ++ [e])) (t ++ [e]) s' := by
  have hdepth := ht.of_snoc.length_openCalls
  have hlast := ht.nesting _ List.prefix_rfl
  simp only [List.countP_append] at hlast
  cases e with
  | enter a =>
    have hmem : a ∈ entered (t ++ [.enter a]) := mem_entered.mpr (by simp)
    simp only [Globals.step, Option.bind_eq_bind]
    obtain ⟨s₁, hs₁, h₁⟩ := h.addSymbol hout ht fun _ => hfits a hmem
    rw [hs₁, Option.bind_some]
    have hopen : ∀ b ∈ openCalls t, b ∈ entered (t ++ [.enter a]) := by
      intro b hb
      rw [mem_entered, List.mem_append]
      exact .inl (mem_entered.mp (mem_entered_of_open hb))
    obtain ⟨calls, hs₂, hcount, hunused⟩ := h₁.addCallTrace ht.fits hmem hopen
    rw [hs₂, Option.bind_some]
    have hroom : (openCalls t).length < MAX_ELEMENTS := by
      simp [MAX_ELEMENTS] at hlast ⊢
      omega
    simp only [Globals.stackPush, Globals.stackNumElems, h₁.stack, hroom, if_true]
    refine ⟨_, rfl, h₁.imageName, h₁.line, ?_, h₁.functions, hcount, hunused, h₁.names,
      h₁.printable, h₁.totals⟩
    rw [openCalls_enter]
  | exit a =>
    have hcall : openCalls t ≠ [] := by
      intro hnil
      rw [hnil] at hdepth
      simp at hlast hdepth
      omega
    obtain ⟨f, rest, hcalls⟩ := List.exists_cons_of_ne_nil hcall
    have hcount : ∀ f g, callCount (t ++ [.exit a]) f g = callCount t f g := by
      intro f g
      rw [callCount_snoc]
      simp
    simp only [Globals.step, Globals.stackPop, h.stack, hcalls]
    rw [entered_exit]
    refine ⟨_, rfl, h.imageName, h.line, ?_, h.functions, ?_, h.unused, h.names, h.printable,
      h.totals⟩
    · rw [openCalls_exit, hcalls]
      rfl
    · intro i j f g hi hj
      rw [hcount, ← h.calls hi hj]

/-- What the loop leaves of the trace, from the state that `initSymbol` makes. -/
def runTrace (popen : Nat → Option Bytes) (image : Bytes) (t : List Event) : Option Globals :=
  (Globals.init image).bind fun s => t.foldlM (Globals.step popen) s

theorem runTrace_snoc (popen : Nat → Option Bytes) (image : Bytes) (t : List Event) (e : Event) :
    runTrace popen image (t ++ [e]) = (runTrace popen image t).bind fun s => s.step popen e := by
  unfold runTrace
  cases Globals.init image with
  | none => rfl
  | some s =>
    simp only [Option.bind_some, List.foldlM_append, Option.bind_eq_bind]
    cases t.foldlM (Globals.step popen) s with
    | none => rfl
    | some s' =>
      cases hs : s'.step popen e with
      | none => simp [hs]
      | some s'' => simp [hs]

/-- The whole loop. -/
theorem describes_run (hout : Promised popen image) (himage : image.length < MAX_FUNCTION_NAME)
    (ht : WellNested t) (hfits : ∀ a ∈ entered t, LineFits popen image a) :
    ∃ s, runTrace popen image t = some s ∧ Describes popen image (entered t) t s := by
  induction t using List.reverseRecOn with
  | nil =>
    obtain ⟨s, hs, hdesc⟩ : ∃ s, Globals.init image = some s ∧
        Describes popen image (entered []) [] s := describes_init himage
    exact ⟨s, by simp [runTrace, hs], hdesc⟩
  | append_singleton t e ih =>
    have hold : ∀ a ∈ entered t, LineFits popen image a := by
      intro a ha
      refine hfits a (mem_entered.mpr ?_)
      exact List.mem_append_left _ (mem_entered.mp ha)
    obtain ⟨s, hs, hdesc⟩ := ih ht.of_snoc hold
    obtain ⟨s', hs', hdesc'⟩ := hdesc.step hout ht hfits
    exact ⟨s', by rw [runTrace_snoc, hs, Option.bind_some, hs'], hdesc'⟩

/-- The loop does not get past a function whose command or answer does not fit. -/
theorem runTrace_eq_none (hout : Promised popen image) (himage : image.length < MAX_FUNCTION_NAME)
    (ht : WellNested t) (hfits : ¬ ∀ a ∈ entered t, LineFits popen image a) :
    runTrace popen image t = none := by
  induction t using List.reverseRecOn with
  | nil => exact absurd (by simp [entered]) hfits
  | append_singleton t e ih =>
    rw [runTrace_snoc]
    by_cases hold : ∀ a ∈ entered t, LineFits popen image a
    · obtain ⟨s, hs, hdesc⟩ := describes_run hout himage ht.of_snoc hold
      cases e with
      | exit a =>
        rw [entered_exit] at hfits
        exact absurd hold hfits
      | enter a =>
        have hnew : a ∉ entered t ∧ ¬ LineFits popen image a := by
          rw [entered_enter] at hfits
          split_ifs at hfits with ha
          · exact absurd hold hfits
          · refine ⟨ha, fun hafits => hfits fun b hb => ?_⟩
            rcases List.mem_append.mp hb with hb | hb
            · exact hold b hb
            · rwa [List.mem_singleton.mp hb]
        rw [hs, Option.bind_some, Globals.step, hdesc.addSymbol_eq_none hout ht hnew.1 hnew.2]
        rfl
    · rw [ih ht.of_snoc hold]
      rfl

/-! ## The emission loops

They run over the used slots `xs` and stop at the first of the empty ones, `rest`. -/

section Emission

variable {xs rest : List Nat} {caller : Nat}

theorem takeWhile_used (hx : ∀ i ∈ xs, s.functions i ≠ 0) (hrest : ∀ i ∈ rest, s.functions i = 0) :
    (xs ++ rest).takeWhile (fun i => s.functions i ≠ 0) = xs := by
  rw [List.takeWhile_append_of_pos (by simpa using hx)]
  cases rest with
  | nil => simp
  | cons i rest => simp [hrest i List.mem_cons_self]

theorem emitRow_eq (hx : ∀ i ∈ xs, s.functions i ≠ 0)
    (hrest : ∀ i ∈ rest, s.functions i = 0 ∧ s.calls caller i = 0) :
    s.emitRow caller (xs ++ rest) = (xs.filter fun i => s.calls caller i ≠ 0).map fun i =>
      ⟨wrap32 (s.functions caller), wrap32 (s.functions i), wrap32 (s.calls caller i)⟩ := by
  induction xs with
  | nil =>
    cases rest with
    | nil => rfl
    | cons i rest =>
      obtain ⟨hfun, hcalls⟩ := hrest i List.mem_cons_self
      simp [Globals.emitRow, hfun, hcalls]
  | cons i xs ih =>
    have hfun := hx i List.mem_cons_self
    rw [List.cons_append, Globals.emitRow, ih fun j hj => hx j (List.mem_cons_of_mem i hj),
      if_neg hfun]
    by_cases hcalls : s.calls caller i = 0
    · simp [hcalls]
    · simp [hcalls]

theorem emitEdges_eq (hx : ∀ i ∈ xs, s.functions i ≠ 0) (hrest : ∀ i ∈ rest, s.functions i = 0) :
    s.emitEdges (xs ++ rest) = xs.flatMap fun i => s.emitRow i slots := by
  induction xs with
  | nil =>
    cases rest with
    | nil => rfl
    | cons i rest => simp [Globals.emitEdges, hrest i List.mem_cons_self]
  | cons i xs ih =>
    have hfun := hx i List.mem_cons_self
    rw [List.cons_append, Globals.emitEdges, ih fun j hj => hx j (List.mem_cons_of_mem i hj),
      if_neg hfun, List.flatMap_cons]

/-- The shape that a used slot gets. -/
def shapeOf (s : Globals) (i : Nat) : Shape :=
  if (s.totals i + s.numCallees i) % 2 ^ 32 ≠ 0 then .rectangle else .ellipse

/-- A label is printed as long as its block has an end. -/
theorem readString_of_mem {block : Bytes} (h : (0 : UInt8) ∈ block) :
    ∃ label, readString block = some label :=
  ⟨_, if_pos h⟩

/-- The loop prints a node for every used slot, once `func` is set. -/
theorem emitNodes_eq (hx : ∀ i ∈ xs, s.functions i ≠ 0) (hrest : ∀ i ∈ rest, s.functions i = 0)
    (hnul : ∀ i ∈ xs, ∀ block, s.funNameMap (s.functions i) = some block → (0 : UInt8) ∈ block)
    (func : Option Bytes) (hfunc : ∀ block, func = some block → (0 : UInt8) ∈ block)
    (hname : func.isSome ∨ ∀ i ∈ xs.head?, (s.funNameMap (s.functions i)).isSome) :
    ∃ nodes, s.emitNodes (xs ++ rest) func = some nodes ∧
      nodes.map (fun n => (n.id, n.shape)) =
        xs.map fun i => (wrap32 (s.functions i), shapeOf s i) := by
  induction xs generalizing func with
  | nil =>
    refine ⟨[], ?_, rfl⟩
    cases rest with
    | nil => rfl
    | cons i rest => simp [Globals.emitNodes, hrest i List.mem_cons_self]
  | cons i xs ih =>
    have hfun := hx i List.mem_cons_self
    obtain ⟨block, hblock⟩ : ∃ block, (s.funNameMap (s.functions i)).or func = some block := by
      rw [← Option.isSome_iff_exists, Option.isSome_or, Bool.or_eq_true]
      exact hname.symm.imp_left fun h => h i rfl
    have hend : (0 : UInt8) ∈ block := by
      rcases Option.or_eq_some_iff.mp hblock with h | ⟨-, h⟩
      · exact hnul i List.mem_cons_self block h
      · exact hfunc block h
    obtain ⟨label, hlabel⟩ := readString_of_mem hend
    obtain ⟨nodes, hnodes, hids⟩ := ih (fun j hj => hx j (List.mem_cons_of_mem i hj))
      (fun j hj => hnul j (List.mem_cons_of_mem i hj)) (some block)
      (fun b hb => Option.some_inj.mp hb ▸ hend) (.inl rfl)
    rw [List.cons_append, Globals.emitNodes, if_neg hfun]
    simp only [hblock, hlabel, hnodes, Option.map_some]
    exact ⟨_, rfl, congrArg _ hids⟩

/-- It does not get past a name that has no end. -/
theorem emitNodes_printable {nodes : List Node} {func : Option Bytes}
    (hx : ∀ i ∈ xs, s.functions i ≠ 0) (h : s.emitNodes (xs ++ rest) func = some nodes) :
    ∀ i ∈ xs, ∀ block, s.funNameMap (s.functions i) = some block → (0 : UInt8) ∈ block := by
  induction xs generalizing func nodes with
  | nil => simp
  | cons i xs ih =>
    rw [List.cons_append, Globals.emitNodes, if_neg (hx i List.mem_cons_self)] at h
    simp only at h
    split at h
    · cases h
    · rename_i block hblock
      split at h
      · cases h
      · rename_i label hlabel
        obtain ⟨later, hlater, -⟩ := Option.map_eq_some_iff.mp h
        intro j hj block' hblock'
        rcases List.mem_cons.mp hj with rfl | hj
        · rw [hblock', Option.some_or, Option.some_inj] at hblock
          subst hblock
          by_contra hno
          rw [readString, if_neg hno] at hlabel
          cases hlabel
        · exact ih (fun k hk => hx k (List.mem_cons_of_mem i hk)) hlater j hj block' hblock'

end Emission

/-! ## What is emitted -/

theorem wrap32_inj {a b : Nat} (ha : a < 2 ^ 32) (hb : b < 2 ^ 32)
    (h : wrap32 a = wrap32 b) : a = b := by
  unfold wrap32 at h
  omega

/-- The graph that comes out, with the counters as they are printed. -/
structure Emitted (t : List Event) (G : Graph) : Prop where
  ids : G.nodes.map Node.id = (entered t).map fun a : Nat => wrap32 a
  shape : ∀ n ∈ G.nodes, ∃ a ∈ entered t, n.id = wrap32 a ∧
    (n.shape = .rectangle ↔ ∃ g, callCount t a g % 2 ^ 32 ≠ 0)
  edge : ∀ e, e ∈ G.edges ↔ ∃ f g, callCount t f g % 2 ^ 32 ≠ 0 ∧
    e = ⟨wrap32 f, wrap32 g, wrap32 (callCount t f g % 2 ^ 32 : Nat)⟩
  edges_nodup : (G.edges.map fun e => (e.source, e.target)).Nodup

theorem Describes.map_functions (h : Describes popen image l t s) :
    (List.range' 0 l.length).map s.functions = l := by
  refine List.ext_getElem (by simp) fun i _ hi => ?_
  simp [h.functions, hi]

theorem mem_range'_of_getElem? (hi : l[i]? = some a) : i ∈ List.range' 0 l.length := by
  obtain ⟨hlt, -⟩ := List.getElem?_eq_some_iff.mp hi
  rw [List.mem_range'_1]
  omega

section

variable (h : Describes popen image l t s) (hl : Fits l)

include h hl

theorem Describes.used (hi : i ∈ List.range' 0 l.length) :
    ∃ a, l[i]? = some a ∧ s.functions i = a ∧ a ≠ 0 := by
  rw [List.mem_range'_1] at hi
  have ha := List.getElem?_eq_getElem (show i < l.length by omega)
  exact ⟨_, ha, h.functions_of_mem ha, (hl.pos _ (List.mem_of_getElem? ha)).ne'⟩

/-- The used slots and the empty ones. -/
theorem Describes.slots_eq : ∃ rest, slots = List.range' 0 l.length ++ rest ∧
    (∀ i ∈ List.range' 0 l.length, s.functions i ≠ 0) ∧
    ∀ i ∈ rest, s.functions i = 0 ∧ ∀ caller, s.calls caller i = 0 := by
  refine ⟨List.range' (0 + l.length) (MAX_FUNCTIONS - l.length), ?_, ?_, ?_⟩
  · rw [List.range'_append_1, Nat.add_sub_cancel' hl.length, slots]
  · intro i hi
    obtain ⟨a, -, hfun, hne⟩ := h.used hl hi
    rwa [hfun]
  · intro i hi
    rw [List.mem_range'_1] at hi
    have hle : l.length ≤ i := by omega
    exact ⟨(h.functions_eq_zero_iff hl).mpr hle, fun caller => h.unused (.inr hle)⟩

theorem Describes.emitEdges_slots : s.emitEdges slots =
    (List.range' 0 l.length).flatMap fun i =>
      ((List.range' 0 l.length).filter fun j => s.calls i j ≠ 0).map fun j =>
        ⟨wrap32 (s.functions i), wrap32 (s.functions j), wrap32 (s.calls i j)⟩ := by
  obtain ⟨rest, hslots, hused, hrest⟩ := h.slots_eq hl
  rw [hslots, emitEdges_eq hused fun i hi => (hrest i hi).1, hslots]
  refine List.flatMap_congr fun i _ => ?_
  exact emitRow_eq hused fun j hj => ⟨(hrest j hj).1, (hrest j hj).2 i⟩

theorem Describes.mem_emitEdges {e : Edge} : e ∈ s.emitEdges slots ↔
    ∃ f ∈ l, ∃ g ∈ l, callCount t f g % 2 ^ 32 ≠ 0 ∧
      e = ⟨wrap32 f, wrap32 g, wrap32 (callCount t f g % 2 ^ 32 : Nat)⟩ := by
  simp only [h.emitEdges_slots hl, List.mem_flatMap, List.mem_map, List.mem_filter]
  constructor
  · intro hw
    rcases hw with ⟨i, hi, j, ⟨hj, hcalls⟩, rfl⟩
    obtain ⟨f, hf, hfun, -⟩ := h.used hl hi
    obtain ⟨g, hg, hgun, -⟩ := h.used hl hj
    rw [h.calls hf hg] at hcalls ⊢
    rw [hfun, hgun]
    exact ⟨f, List.mem_of_getElem? hf, g, List.mem_of_getElem? hg, of_decide_eq_true hcalls, rfl⟩
  · intro hw
    rcases hw with ⟨f, hf, g, hg, hcount, rfl⟩
    obtain ⟨i, hi⟩ := List.mem_iff_getElem?.mp hf
    obtain ⟨j, hj⟩ := List.mem_iff_getElem?.mp hg
    refine ⟨i, mem_range'_of_getElem? hi, j, ⟨mem_range'_of_getElem? hj, ?_⟩, ?_⟩
    · rw [h.calls hi hj]
      exact decide_eq_true hcount
    · rw [h.calls hi hj, h.functions_of_mem hi, h.functions_of_mem hj]

/-- No two edges between the same nodes. -/
theorem Describes.edges_nodup (hlt : ∀ a ∈ l, a < 2 ^ 32) :
    ((s.emitEdges slots).map fun e => (e.source, e.target)).Nodup := by
  have hinj : ∀ i ∈ List.range' 0 l.length, ∀ j ∈ List.range' 0 l.length,
      wrap32 (s.functions i) = wrap32 (s.functions j) → i = j := by
    intro i hi j hj hsame
    obtain ⟨f, hf, hfun, -⟩ := h.used hl hi
    obtain ⟨g, hg, hgun, -⟩ := h.used hl hj
    rw [hfun, hgun] at hsame
    have hflt := hlt f (List.mem_of_getElem? hf)
    have hglt := hlt g (List.mem_of_getElem? hg)
    obtain rfl := wrap32_inj hflt hglt hsame
    exact hl.index_unique hf hg
  have hnodup : (List.range' 0 l.length).Nodup := List.nodup_range'
  simp only [h.emitEdges_slots hl, List.map_flatMap, List.map_map]
  rw [List.nodup_flatMap]
  constructor
  · intro i _
    refine List.Nodup.map_on ?_ (hnodup.filter _)
    intro j hj j' hj' hsame
    have htarget := (Prod.ext_iff.mp hsame).2
    exact hinj j (List.mem_of_mem_filter hj) j' (List.mem_of_mem_filter hj') htarget
  · refine hnodup.imp_of_mem ?_
    intro i i' hi hi' hne
    apply List.disjoint_left.mpr
    intro p hp hp'
    obtain ⟨j, -, rfl⟩ := List.mem_map.mp hp
    obtain ⟨j', -, hsame⟩ := List.mem_map.mp hp'
    exact hne (hinj i hi i' hi' (Prod.ext_iff.mp hsame).1.symm)

theorem Describes.shapeOf_eq (hi : l[i]? = some f) :
    shapeOf s i = .rectangle ↔ ∃ g ∈ l, callCount t f g % 2 ^ 32 ≠ 0 := by
  obtain ⟨rest, hslots, hused, hrest⟩ := h.slots_eq hl
  have hnum : s.numCallees i = (List.range' 0 l.length).countP fun j => s.calls i j ≠ 0 := by
    rw [Globals.numCallees, hslots, takeWhile_used hused fun j hj => (hrest j hj).1]
  have hsmall : s.numCallees i < 2 ^ 32 := by
    have hmax : l.length ≤ 30000 := hl.length
    have hle : s.numCallees i ≤ l.length := by
      rw [hnum]
      exact List.countP_le_length.trans List.length_range'.le
    omega
  have hshape : shapeOf s i = .rectangle ↔ 0 < s.numCallees i := by
    unfold shapeOf
    rw [h.totals, Nat.zero_add, Nat.mod_eq_of_lt hsmall]
    split_ifs with hzero
    · simpa [Nat.pos_iff_ne_zero] using hzero
    · simpa using hzero
  rw [hshape, hnum, List.countP_pos_iff]
  constructor
  · intro hw
    rcases hw with ⟨j, hj, hcalls⟩
    obtain ⟨g, hg, -, -⟩ := h.used hl hj
    rw [h.calls hi hg] at hcalls
    exact ⟨g, List.mem_of_getElem? hg, of_decide_eq_true hcalls⟩
  · intro hw
    rcases hw with ⟨g, hg, hcount⟩
    obtain ⟨j, hj⟩ := List.mem_iff_getElem?.mp hg
    rw [← h.calls hi hj] at hcount
    exact ⟨j, mem_range'_of_getElem? hj, decide_eq_true hcount⟩

end

/-- Unless the first label is missing or one has no end, the whole table is emitted. -/
theorem Describes.emitted (h : Describes popen image (entered t) t s) (ht : WellNested t)
    (hfirst : ∀ a, (t.filterMap Event.entered?).head? = some a → (popen a).isSome)
    (hline : ∀ a ∈ entered t, HasLine popen image a) :
    ∃ G, s.emitSymbols = some G ∧ Emitted t G := by
  obtain ⟨rest, hslots, hused, hrest⟩ := h.slots_eq ht.fits
  have hname : ∀ i ∈ (List.range' 0 (entered t).length).head?,
      (s.funNameMap (s.functions i)).isSome := by
    intro i hi
    obtain ⟨a, ha, hfun, -⟩ := h.used ht.fits (List.mem_of_head? hi)
    have hi0 : i = 0 := by
      rw [Option.mem_def, List.head?_range'] at hi
      split_ifs at hi
      exact (Option.some_inj.mp hi).symm
    subst hi0
    have hmem := List.mem_of_getElem? ha
    rw [← List.head?_eq_getElem?, head?_entered] at ha
    rw [hfun, h.names, hfirst a ha]
    simpa using hmem
  have hnul : ∀ i ∈ List.range' 0 (entered t).length, ∀ block,
      s.funNameMap (s.functions i) = some block → (0 : UInt8) ∈ block := by
    intro i hi block hblock
    obtain ⟨a, ha, hfun, -⟩ := h.used ht.fits hi
    rw [hfun] at hblock
    exact (h.printable a block hblock).mpr (hline a (List.mem_of_getElem? ha))
  obtain ⟨nodes, hnodes, hids⟩ :=
    emitNodes_eq hused (fun i hi => (hrest i hi).1) hnul none nofun (.inr hname)
  rw [← hslots] at hnodes
  refine ⟨⟨s.imageName, nodes, s.emitEdges slots⟩, ?_, ?_, ?_, ?_, ?_⟩
  · rw [Globals.emitSymbols, hnodes]
    rfl
  · have hfst := congrArg (List.map Prod.fst) hids
    rw [List.map_map, List.map_map] at hfst
    refine Eq.trans hfst ?_
    nth_rewrite 2 [← h.map_functions]
    rw [List.map_map]
    rfl
  · intro n hn
    have hmem : (n.id, n.shape) ∈ nodes.map (fun n => (n.id, n.shape)) :=
      List.mem_map_of_mem hn
    rw [hids] at hmem
    obtain ⟨i, hi, heq⟩ := List.mem_map.mp hmem
    obtain ⟨hid, hshape⟩ := Prod.mk.injEq .. ▸ heq
    obtain ⟨f, hf, hfun, -⟩ := h.used ht.fits hi
    refine ⟨f, List.mem_of_getElem? hf, by rw [← hid, hfun], ?_⟩
    rw [← hshape, h.shapeOf_eq ht.fits hf]
    refine ⟨fun ⟨g, _, hg⟩ => ⟨g, hg⟩, fun ⟨g, hg⟩ => ⟨g, ?_, hg⟩⟩
    exact (mem_entered_of_counted hg).2
  · intro e
    rw [h.mem_emitEdges ht.fits]
    refine ⟨fun ⟨f, _, g, _, hfg⟩ => ⟨f, g, hfg⟩, fun ⟨f, g, hfg⟩ => ?_⟩
    obtain ⟨hf, hg⟩ := mem_entered_of_counted hfg.1
    exact ⟨f, hf, g, hg, hfg⟩
  · exact h.edges_nodup ht.fits fun a ha => ht.lt_of_entered ha

/-- The first function has a name, and all names have an end, if the table is emitted. -/
theorem Describes.of_emitted {G : Graph} (h : Describes popen image (entered t) t s)
    (ht : WellNested t) (hG : s.emitSymbols = some G) :
    (∀ a, (t.filterMap Event.entered?).head? = some a → (popen a).isSome) ∧
      ∀ a ∈ entered t, HasLine popen image a := by
  obtain ⟨nodes, hnodes, -⟩ := Option.map_eq_some_iff.mp hG
  obtain ⟨rest, hslots, hused, -⟩ := h.slots_eq ht.fits
  constructor
  · intro a ha
    rw [← head?_entered, List.head?_eq_getElem?] at ha
    have hfun := h.functions_of_mem ha
    have hmem := List.mem_of_getElem? ha
    have hne : s.functions 0 ≠ 0 := by
      rw [hfun]
      exact (ht.fits.pos a hmem).ne'
    by_contra hpopen
    have hname : s.funNameMap (s.functions 0) = none := by
      rw [Option.not_isSome_iff_eq_none] at hpopen
      rw [← Option.isNone_iff_eq_none, ← Option.not_isSome, hfun, h.names, hpopen]
      simp
    have hzero : slots = 0 :: List.range' 1 29999 := rfl
    rw [hzero, Globals.emitNodes, if_neg hne, hname] at hnodes
    cases hnodes
  · intro a ha hempty
    obtain ⟨i, hi⟩ := List.mem_iff_getElem?.mp ha
    have hfun := h.functions_of_mem hi
    obtain ⟨block, hblock⟩ : ∃ block, s.funNameMap (s.functions i) = some block := by
      rw [← Option.isSome_iff_exists, hfun, h.names, hempty]
      simpa using ha
    rw [hslots] at hnodes
    have hend := emitNodes_printable hused hnodes i (mem_range'_of_getElem? hi) block hblock
    rw [hfun] at hblock
    exact (h.printable a block hblock).mp hend hempty

theorem pvtrace_eq (popen : Nat → Option Bytes) (image : Bytes) (t : List Event) :
    pvtrace popen image t = (runTrace popen image t).bind Globals.emitSymbols := by
  unfold pvtrace runTrace
  cases Globals.init image with
  | none => rfl
  | some s => rfl

/-- What the outside has to answer. -/
structure Answers (popen : Nat → Option Bytes) (image : Bytes) (t : List Event) : Prop where
  first : ∀ a, (t.filterMap Event.entered?).head? = some a → (popen a).isSome
  imageName : image.length < MAX_FUNCTION_NAME
  lines : ∀ a, .enter a ∈ t → LineFits popen image a ∧ HasLine popen image a

theorem pvtrace_emitted (hout : Promised popen image) (ht : WellNested t)
    (hans : Answers popen image t) : ∃ G, pvtrace popen image t = some G ∧ Emitted t G := by
  obtain ⟨s, hs, h⟩ := describes_run hout hans.imageName ht fun a ha =>
    (hans.lines a (mem_entered.mp ha)).1
  obtain ⟨G, hG, hemit⟩ := h.emitted ht hans.first fun a ha => (hans.lines a (mem_entered.mp ha)).2
  refine ⟨G, ?_, hemit⟩
  rw [pvtrace_eq, hs, Option.bind_some, hG]

/-- Without these answers there is no graph. -/
theorem answers_of_pvtrace {G : Graph} (hout : Promised popen image) (ht : WellNested t)
    (hG : pvtrace popen image t = some G) : Answers popen image t := by
  have himage : image.length < MAX_FUNCTION_NAME := by
    by_contra hlong
    rw [pvtrace, Globals.init, if_neg hlong] at hG
    cases hG
  rw [pvtrace_eq] at hG
  have hfits : ∀ a ∈ entered t, LineFits popen image a := by
    by_contra hfits
    rw [runTrace_eq_none hout himage ht hfits] at hG
    cases hG
  obtain ⟨s, hs, h⟩ := describes_run hout himage ht hfits
  rw [hs, Option.bind_some] at hG
  obtain ⟨hfirst, hline⟩ := h.of_emitted ht hG
  refine ⟨hfirst, himage, fun a ha => ?_⟩
  have hmem := mem_entered.mpr ha
  exact ⟨hfits a hmem, hline a hmem⟩

/-! ## The call graph -/

/-- `G` is the call graph of the trace. -/
structure IsCallGraph (t : List Event) (G : Graph) : Prop where
  node : ∃ addresses : List Nat, addresses.Nodup ∧ (∀ a, a ∈ addresses ↔ .enter a ∈ t) ∧
    G.nodes.map Node.id = addresses.map fun a : Nat => wrap32 a
  nodes_nodup : (G.nodes.map Node.id).Nodup
  edge : ∀ e, e ∈ G.edges ↔
    ∃ f g, 0 < callCount t f g ∧ e = ⟨wrap32 f, wrap32 g, callCount t f g⟩
  edges_nodup : (G.edges.map fun e => (e.source, e.target)).Nodup
  shape : ∀ n ∈ G.nodes, n.shape = .rectangle ↔ ∃ e ∈ G.edges, e.source = n.id

theorem Emitted.isCallGraph {G : Graph} (h : Emitted t G) (ht : WellNested t)
    (hsmall : ∀ f g, callCount t f g < 2 ^ 31) : IsCallGraph t G := by
  have hmod : ∀ f g, callCount t f g % 2 ^ 32 = callCount t f g := by
    intro f g
    have hlt := hsmall f g
    exact Nat.mod_eq_of_lt (by omega)
  have hprint : ∀ f g, wrap32 (callCount t f g) = callCount t f g := by
    intro f g
    have hlt := hsmall f g
    exact wrap32_of_inInt32 ⟨by omega, by omega⟩
  have hedge : ∀ e, e ∈ G.edges ↔
      ∃ f g, 0 < callCount t f g ∧ e = ⟨wrap32 f, wrap32 g, callCount t f g⟩ := by
    intro e
    simp only [h.edge, hmod, hprint, Nat.pos_iff_ne_zero]
  refine ⟨⟨entered t, entered_nodup, fun a => mem_entered, h.ids⟩, ?_, hedge, h.edges_nodup, ?_⟩
  · rw [h.ids]
    refine entered_nodup.map_on ?_
    intro a ha b hb hsame
    exact wrap32_inj (ht.lt_of_entered ha) (ht.lt_of_entered hb) hsame
  · intro n hn
    obtain ⟨a, ha, hid, hshape⟩ := h.shape n hn
    rw [hshape, hid]
    simp only [hmod]
    constructor
    · intro hw
      rcases hw with ⟨g, hg⟩
      exact ⟨_, (hedge _).mpr ⟨a, g, Nat.pos_of_ne_zero hg, rfl⟩, rfl⟩
    · intro hw
      rcases hw with ⟨e, he, hsource⟩
      obtain ⟨f, g, hpos, rfl⟩ := (hedge e).mp he
      have hf := (mem_entered_of_callCount hpos.ne').1
      obtain rfl := wrap32_inj (ht.lt_of_entered hf) (ht.lt_of_entered ha) hsource
      exact ⟨g, hpos.ne'⟩

/-- A label is an `int`. -/
theorem Emitted.callCount_lt {G : Graph} (h : Emitted t G) (hG : IsCallGraph t G) (f g : Nat) :
    callCount t f g < 2 ^ 31 := by
  rcases Nat.eq_zero_or_pos (callCount t f g) with hzero | hpos
  · omega
  · obtain ⟨f', g', -, heq⟩ := (h.edge _).mp ((hG.edge _).mpr ⟨f, g, hpos, rfl⟩)
    have hlabel : (callCount t f g : Int) = wrap32 (callCount t f' g' % 2 ^ 32 : Nat) :=
      congrArg Edge.label heq
    have hrange := inInt32_wrap32 (callCount t f' g' % 2 ^ 32 : Nat)
    rw [← hlabel] at hrange
    have hlt : (callCount t f g : Int) < 2 ^ 31 := hrange.2
    omega

/-- **The call graph.** -/
theorem callGraph_iff (popen : Nat → Option Bytes) (image : Bytes) (hout : Promised popen image)
    (ht : WellNested t) :
    (∃ G, pvtrace popen image t = some G ∧ IsCallGraph t G) ↔
      (∀ f g, callCount t f g < 2 ^ 31) ∧ Answers popen image t := by
  constructor
  · intro hw
    rcases hw with ⟨G, hrun, hG⟩
    have hans := answers_of_pvtrace hout ht hrun
    obtain ⟨G', hrun', hemit⟩ := pvtrace_emitted hout ht hans
    rw [hrun', Option.some_inj] at hrun
    subst hrun
    exact ⟨hemit.callCount_lt hG, hans⟩
  · intro hw
    rcases hw with ⟨hsmall, hans⟩
    obtain ⟨G, hrun, hemit⟩ := pvtrace_emitted hout ht hans
    exact ⟨G, hrun, hemit.isCallGraph ht hsmall⟩

/-! ## Too many calls -/

/-- The first function calls the second one `n` times. -/
def busyTrace : Nat → List Event
  | 0 => [.enter 1]
  | n + 1 => busyTrace n ++ [.enter 2] ++ [.exit 2]

theorem openCalls_busyTrace (n : Nat) : openCalls (busyTrace n) = [1] := by
  cases n with
  | zero => rfl
  | succ n => rw [busyTrace, openCalls_exit, openCalls_enter, List.tail_cons, openCalls_busyTrace n]

theorem callCount_busyTrace (n : Nat) : callCount (busyTrace n) 1 2 = n := by
  induction n with
  | zero => decide
  | succ n ih =>
    rw [busyTrace, callCount_snoc, callCount_snoc, openCalls_busyTrace, ih]
    simp

theorem countP_busyTrace (n : Nat) : (busyTrace n).countP (·.isEnter) = n + 1 ∧
    (busyTrace n).countP (!·.isEnter) = n := by
  induction n with
  | zero => exact ⟨rfl, rfl⟩
  | succ n ih => simp [busyTrace, List.countP_append, List.countP_cons, ih]

theorem address_busyTrace (n : Nat) : ∀ e ∈ busyTrace n, e.address = 1 ∨ e.address = 2 := by
  induction n with
  | zero => decide
  | succ n ih =>
    intro e he
    simp only [busyTrace, List.mem_append, List.mem_singleton] at he
    rcases he with (he | rfl) | rfl
    · exact ih e he
    · exact .inr rfl
    · exact .inr rfl

theorem wellNested_busyTrace (n : Nat) : WellNested (busyTrace n) where
  address e he := by
    rcases address_busyTrace n e he with h | h
    · omega
    · omega
  nesting := by
    induction n with
    | zero =>
      intro p hp
      rcases List.prefix_concat_iff.mp (show p <+: [] ++ [Event.enter 1] from hp) with rfl | hp
      · exact ⟨by decide, by decide⟩
      · rw [List.prefix_nil.mp hp]
        exact ⟨by decide, by decide⟩
    | succ n ih =>
      obtain ⟨henter, hexit⟩ := countP_busyTrace n
      intro p hp
      rcases List.prefix_concat_iff.mp hp with rfl | hp
      · simp [List.countP_append, List.countP_cons, henter, hexit]
      · rcases List.prefix_concat_iff.mp hp with rfl | hp
        · simp only [List.countP_append, henter, hexit, List.countP_singleton, Event.isEnter_enter]
          exact ⟨by simp; omega, by simp⟩
        · exact ih p hp
  distinct := by
    have hsub : ((busyTrace n).map Event.address).toFinset ⊆ {1, 2} := by
      intro a ha
      obtain ⟨e, he, rfl⟩ := List.mem_map.mp (List.mem_toFinset.mp ha)
      simpa using address_busyTrace n e he
    exact (Finset.card_le_card hsub).trans (by decide)

/-- The image `p`, all of whose functions are called `f`. -/
theorem promised_sample : Promised (fun _ => some [102, 10]) [112] where
  image := by decide
  no_nul a text h := by
    cases h
    decide
  lines a text h _ := by
    cases h
    decide

theorem answers_busyTrace (n : Nat) : Answers (fun _ => some [102, 10]) [112] (busyTrace n) where
  first _ _ := rfl
  imageName := by decide
  lines a ha := by
    have hcommand : (addr2line [112] 1).length < MAX_FUNCTION_NAME ∧
        (addr2line [112] 2).length < MAX_FUNCTION_NAME := by decide
    refine ⟨⟨?_, ?_⟩, nofun⟩
    · rcases address_busyTrace n _ ha with h | h
      · rw [show a = 1 from h]
        exact hcommand.1
      · rw [show a = 2 from h]
        exact hcommand.2
    · intro text h
      cases h
      decide

/-- After `2 ^ 31` calls the label is negative. -/
theorem not_callGraph :
    ∃ t : List Event, WellNested t ∧
      ¬ ∃ G, pvtrace (fun _ => some [102, 10]) [112] t = some G ∧ IsCallGraph t G := by
  have ht := wellNested_busyTrace (2 ^ 31)
  refine ⟨busyTrace (2 ^ 31), ht, ?_⟩
  intro hw
  rcases hw with ⟨G, hrun, hG⟩
  obtain ⟨G', hrun', hemit⟩ := pvtrace_emitted promised_sample ht (answers_busyTrace _)
  rw [hrun', Option.some_inj] at hrun
  subst hrun
  have hlt := hemit.callCount_lt hG 1 2
  rw [callCount_busyTrace] at hlt
  exact lt_irrefl _ hlt

theorem callGraph_iff_sample :
    WellNested (busyTrace 3) ∧
      ∃ G, pvtrace (fun _ => some [102, 10]) [112] (busyTrace 3) = some G ∧
        IsCallGraph (busyTrace 3) G := by
  have ht := wellNested_busyTrace 3
  refine ⟨ht, (callGraph_iff _ _ promised_sample ht).mpr ⟨?_, answers_busyTrace 3⟩⟩
  intro f g
  have hle : callCount (busyTrace 3) f g ≤ 7 := List.countP_le_length
  omega

end DevTools.Pvtrace
