import DevTools.Lib.MachineInt

/-!
# C strings and decimal numbers

A C string is the list of its characters, without the terminating NUL. `atol` follows glibc:
white space, an optional sign, then digits, saturating at the ends of `long`. `castAsChar` is
SQL's `CAST(n AS CHAR)`.

**Theorem (`atol_castAsChar`).** `atol` reads back every 64-bit number that `castAsChar` prints,
whatever follows it, as long as that is not a digit.
-/

namespace DevTools

/-- The terminator. -/
def NUL : Char := Char.ofNat 0

/-- What a memory says when it is read as a string. -/
def cstring (mem : List Char) : List Char := mem.takeWhile (· ≠ NUL)

theorem cstring_of_notMem {s : List Char} (h : NUL ∉ s) : cstring s = s := by
  induction s with
  | nil => rfl
  | cons c s ih =>
    rw [List.mem_cons, not_or] at h
    have hrest := ih h.2
    unfold cstring at hrest ⊢
    rw [List.takeWhile_cons, if_pos (by simpa using Ne.symm h.1), hrest]

/-- `isspace` in the C locale. -/
def isSpaceC (c : Char) : Bool := c == ' ' || (9 ≤ c.toNat && c.toNat ≤ 13)

/-- The number at the front of a text, 0 when there is no digit. -/
def leadingNat (s : List Char) : Nat := Nat.ofDigitChars 10 (s.takeWhile Char.isDigit) 0

/-- Saturation at the ends of `long`. -/
def clamp64 (x : Int) : Int := max (-2 ^ 63) (min (2 ^ 63 - 1) x)

/-- `atol(s)`. -/
def atol (s : List Char) : Int :=
  match s.dropWhile isSpaceC with
  | '-' :: t => clamp64 (-leadingNat t)
  | '+' :: t => clamp64 (leadingNat t)
  | t => clamp64 (leadingNat t)

/-- `atoi(s)`, which is `atol` cut to an `int`. -/
def atoi (s : List Char) : Int := wrap32 (atol s)

/-- `CAST(n AS CHAR)`. -/
def castAsChar : Int → List Char
  | .ofNat n => Nat.toDigits 10 n
  | .negSucc n => '-' :: Nat.toDigits 10 (n + 1)

theorem clamp64_of_inInt64 {x : Int} (h : InInt64 x) : clamp64 x = x := by
  unfold InInt64 at h
  unfold clamp64
  omega

theorem inInt64_clamp64 (x : Int) : InInt64 (clamp64 x) := by
  unfold InInt64 clamp64
  omega

theorem inInt64_atol (s : List Char) : InInt64 (atol s) := by
  unfold atol
  split <;> exact inInt64_clamp64 _

theorem isDigit_toDigits {n : Nat} {c : Char} (hc : c ∈ Nat.toDigits 10 n) : c.isDigit = true :=
  Nat.isDigit_of_mem_toDigits (by decide) (by decide) hc

/-- No digit is a space or a sign. -/
theorem isDigit_bounds {c : Char} (h : c.isDigit = true) : 48 ≤ c.toNat ∧ c.toNat ≤ 57 := by
  simp only [Char.isDigit, Bool.and_eq_true, decide_eq_true_eq, ge_iff_le] at h
  exact h

theorem takeWhile_isDigit_append {ds r : List Char} (hd : ∀ c ∈ ds, c.isDigit = true)
    (hr : ∀ c ∈ r.head?, c.isDigit = false) : (ds ++ r).takeWhile Char.isDigit = ds := by
  induction ds with
  | nil => cases r with
    | nil => rfl
    | cons c r => simp [hr c rfl]
  | cons d ds ih =>
    simp only [List.cons_append, List.takeWhile, hd d (by simp)]
    rw [ih fun c hc => hd c (by simp [hc])]

theorem leadingNat_toDigits_append (n : Nat) {r : List Char}
    (hr : ∀ c ∈ r.head?, c.isDigit = false) : leadingNat (Nat.toDigits 10 n ++ r) = n := by
  rw [leadingNat, takeWhile_isDigit_append (fun _ => isDigit_toDigits) hr,
    Nat.ofDigitChars_ten_toDigits]

/-- A text that starts with a digit is read as it stands. -/
theorem atol_of_digit {c : Char} {s : List Char} (hc : c.isDigit = true) :
    atol (c :: s) = clamp64 (leadingNat (c :: s)) := by
  have hb := isDigit_bounds hc
  have hsp : isSpaceC c = false := by
    simp only [isSpaceC, Bool.or_eq_false_iff, beq_eq_false_iff_ne, Bool.and_eq_false_iff,
      decide_eq_false_iff_not]
    refine ⟨?_, by omega⟩
    rintro rfl
    exact absurd hb.1 (by decide)
  have hm : c ≠ '-' := by rintro rfl; exact absurd hb.1 (by decide)
  have hp : c ≠ '+' := by rintro rfl; exact absurd hb.1 (by decide)
  unfold atol
  rw [List.dropWhile_cons_of_neg (by simp [hsp])]
  split
  · rename_i heq; exact absurd (List.cons.inj heq).1 hm
  · rename_i heq; exact absurd (List.cons.inj heq).1 hp
  · rfl

/-- **Printing and reading back.** -/
theorem atol_castAsChar {x : Int} (hx : InInt64 x) {r : List Char}
    (hr : ∀ c ∈ r.head?, c.isDigit = false) : atol (castAsChar x ++ r) = x := by
  cases x with
  | ofNat n =>
    obtain ⟨c, ds, hds⟩ := List.exists_cons_of_ne_nil (Nat.toDigits_ne_nil (n := n) (b := 10))
    have hc : c.isDigit = true := isDigit_toDigits (n := n) (by simp [hds])
    have hl := leadingNat_toDigits_append n hr
    simp only [castAsChar, hds, List.cons_append] at hl ⊢
    rw [atol_of_digit hc, hl]
    exact clamp64_of_inInt64 hx
  | negSucc n =>
    have hl := leadingNat_toDigits_append (n + 1) hr
    simp only [castAsChar, List.cons_append, atol]
    rw [List.dropWhile_cons_of_neg (by decide)]
    simp only [hl]
    exact clamp64_of_inInt64 hx

/-- No printed number contains a comma. -/
theorem comma_notMem_castAsChar (x : Int) : ',' ∉ castAsChar x := by
  intro h
  cases x with
  | ofNat n => exact absurd (isDigit_toDigits h) (by decide)
  | negSucc n =>
    rcases List.mem_cons.1 h with h | h
    · exact absurd h (by decide)
    · exact absurd (isDigit_toDigits h) (by decide)

/-! ## Splitting at a separator -/

theorem idxOf?_split {α : Type*} [DecidableEq α] {l r : List α} {c : α} (hl : c ∉ l) :
    (l ++ c :: r).idxOf? c = some l.length := by
  rw [List.idxOf?_eq_some_iff]
  refine ⟨by simp, by simp, fun j hj heq => hl ?_⟩
  rw [List.getElem_append_left hj] at heq
  exact heq ▸ List.getElem_mem hj

/-- There is one way to split a text at the first occurrence of a character. -/
theorem split_unique {l l' r r' : List Char} {c : Char} (hl : c ∉ l) (hl' : c ∉ l')
    (h : l ++ c :: r = l' ++ c :: r') : l = l' ∧ r = r' := by
  have hlen : l.length = l'.length := by
    have hidx := idxOf?_split (r := r) hl
    rw [h, idxOf?_split hl'] at hidx
    exact (Option.some.inj hidx).symm
  obtain ⟨rfl, hr⟩ := List.append_inj h hlen
  exact ⟨rfl, (List.cons.inj hr).2⟩

/-- A printed number starts with a digit or with its sign. -/
theorem head_castAsChar (x : Int) : ∀ c ∈ (castAsChar x).head?, c.toNat ≠ 0 := by
  intro c hc
  cases x with
  | ofNat n =>
    have hb := isDigit_bounds (isDigit_toDigits (List.mem_of_mem_head? hc))
    omega
  | negSucc n =>
    cases hc
    decide

end DevTools
