import DevTools.Lib.CString
import Mathlib.Data.Nat.Digits.Lemmas

/-!
# Formatted input and output of C

A stream is the text that is still to be read and the end-of-file indicator, which is set by the
first attempt to read past the end. Each directive of a `scanf` format is a function on streams.

* `scanChar` is `%c`, `literal` an ordinary character, `skipSpace` white space, `scanHex` is `%x`.
* `toHex` is the text of a number in hexadecimal, and `scanHex_toHex` reads it back.
* `fgets` takes a line, or as much of it as fits, and `fgetsAll` is all that comes of it.
-/

namespace DevTools

/-! ## Hexadecimal digits -/

def hexChar (d : Nat) : Char := Char.ofNat (if d < 10 then 48 + d else 87 + d)

/-- `isxdigit`. -/
def isHex (c : Char) : Bool :=
  (48 ≤ c.toNat && c.toNat ≤ 57) || (65 ≤ c.toNat && c.toNat ≤ 70) ||
    (97 ≤ c.toNat && c.toNat ≤ 102)

def hexVal (c : Char) : Nat :=
  if c.toNat ≤ 57 then c.toNat - 48 else if c.toNat ≤ 70 then c.toNat - 55 else c.toNat - 87

/-- A number in lower-case hexadecimal, without leading zeros. -/
def toHex (n : Nat) : List Char := ((Nat.digits 16 n).map hexChar).reverse

def ofHex (cs : List Char) : Nat := Nat.ofDigits 16 (cs.map hexVal).reverse

theorem hexVal_hexChar : ∀ d < 16, hexVal (hexChar d) = d := by decide

theorem isHex_hexChar : ∀ d < 16, isHex (hexChar d) = true := by decide

theorem isHex_of_mem_toHex {n : Nat} {c : Char} (hc : c ∈ toHex n) : isHex c = true := by
  obtain ⟨d, hd, rfl⟩ := List.mem_map.mp (List.mem_reverse.mp hc)
  exact isHex_hexChar d (Nat.digits_lt_base (by decide) hd)

theorem toHex_ne_nil {n : Nat} (hn : 0 < n) : toHex n ≠ [] := by
  unfold toHex
  simp [Nat.digits_eq_nil_iff_eq_zero, hn.ne']

theorem ofHex_toHex (n : Nat) : ofHex (toHex n) = n := by
  have hdigits : (Nat.digits 16 n).map (hexVal ∘ hexChar) = Nat.digits 16 n := by
    have hid : ∀ d ∈ Nat.digits 16 n, (hexVal ∘ hexChar) d = id d := fun d hd =>
      hexVal_hexChar d (Nat.digits_lt_base (by decide) hd)
    rw [List.map_congr_left hid, List.map_id]
  rw [ofHex, toHex, List.map_reverse, List.reverse_reverse, List.map_map, hdigits,
    Nat.ofDigits_digits]

/-! ## Streams -/

/-- An input stream. -/
structure InStream where
  rest : List Char
  eof : Bool
  deriving DecidableEq

namespace InStream

def scanChar (s : InStream) : Option Char × InStream :=
  match s.rest with
  | [] => (none, { s with eof := true })
  | c :: rest => (some c, { s with rest })

def literal (c : Char) (s : InStream) : Bool × InStream :=
  match s.rest with
  | [] => (false, { s with eof := true })
  | d :: rest => if d = c then (true, { s with rest }) else (false, s)

def skipSpace (s : InStream) : InStream :=
  let rest := s.rest.dropWhile isSpaceC
  ⟨rest, s.eof || rest.isEmpty⟩

/-- An optional sign. -/
def takeSign : List Char → Bool × List Char
  | '-' :: rest => (true, rest)
  | '+' :: rest => (false, rest)
  | rest => (false, rest)

/-- An optional `0x`. -/
def dropMark : List Char → List Char
  | '0' :: 'x' :: rest => rest
  | '0' :: 'X' :: rest => rest
  | rest => rest

/-- The number of `%x`: `strtoul` saturates at 64 bits and negates modulo `2 ^ 64`, and an
`unsigned int` keeps the low 32 bits. -/
def hexResult (negative : Bool) (n : Nat) : Nat :=
  let n := min n (2 ^ 64 - 1)
  (if negative then 2 ^ 64 - n else n) % 2 ^ 32

def scanHex (s : InStream) : Option Nat × InStream :=
  let s := s.skipSpace
  let (negative, rest) := takeSign s.rest
  let rest := dropMark rest
  let digits := rest.takeWhile isHex
  let after := rest.dropWhile isHex
  let s' : InStream := ⟨after, s.eof || after.isEmpty⟩
  if digits = [] then (none, s') else (some (hexResult negative (ofHex digits)), s')

/-- No digit is a space, a sign or the `x` of the mark. -/
theorem ne_of_isHex {c d : Char} (hc : isHex c = true) (hd : isHex d = false) : c ≠ d := by
  rintro rfl
  rw [hc] at hd
  cases hd

theorem isSpaceC_of_isHex {c : Char} (hc : isHex c = true) : isSpaceC c = false := by
  simp only [isSpaceC, Bool.or_eq_false_iff, beq_eq_false_iff_ne]
  refine ⟨ne_of_isHex hc (by decide), ?_⟩
  simp only [isHex, Bool.or_eq_true, Bool.and_eq_true, decide_eq_true_eq] at hc
  simp only [Bool.and_eq_false_iff, decide_eq_false_iff_not]
  omega

theorem takeSign_of_isHex {c : Char} {rest : List Char} (hc : isHex c = true) :
    takeSign (c :: rest) = (false, c :: rest) := by
  have hminus : c ≠ '-' := ne_of_isHex hc (by decide)
  have hplus : c ≠ '+' := ne_of_isHex hc (by decide)
  simp [takeSign, hminus, hplus]

theorem dropMark_of_second {c d : Char} {rest : List Char} (hx : d ≠ 'x') (hX : d ≠ 'X') :
    dropMark (c :: d :: rest) = c :: d :: rest := by
  unfold dropMark
  split
  · rename_i heq
    cases heq
    exact absurd rfl hx
  · rename_i heq
    cases heq
    exact absurd rfl hX
  · rfl

/-- A text of digits, and something else after it. -/
theorem scanHex_digits {digits more : List Char} {c : Char} (hne : digits ≠ [])
    (hdigits : ∀ d ∈ digits, isHex d = true) (hc : isHex c = false) (hx : c ≠ 'x') (hX : c ≠ 'X') :
    scanHex ⟨digits ++ c :: more, false⟩ =
      (some (hexResult false (ofHex digits)), ⟨c :: more, false⟩) := by
  obtain ⟨d, ds, rfl⟩ := List.exists_cons_of_ne_nil hne
  have hd := hdigits d List.mem_cons_self
  have hskip : skipSpace ⟨d :: (ds ++ c :: more), false⟩ = ⟨d :: (ds ++ c :: more), false⟩ := by
    simp [skipSpace, isSpaceC_of_isHex hd]
  have hmark : dropMark (d :: (ds ++ c :: more)) = d :: (ds ++ c :: more) := by
    cases ds with
    | nil => exact dropMark_of_second hx hX
    | cons d' ds =>
      have hd' := hdigits d' (List.mem_cons_of_mem d List.mem_cons_self)
      exact dropMark_of_second (ne_of_isHex hd' (by decide)) (ne_of_isHex hd' (by decide))
  have htake : (d :: (ds ++ c :: more)).takeWhile isHex = d :: ds := by
    rw [← List.cons_append, List.takeWhile_append_of_pos hdigits]
    simp [hc]
  have hdrop : (d :: (ds ++ c :: more)).dropWhile isHex = c :: more := by
    rw [← List.cons_append, List.dropWhile_append_of_pos hdigits]
    simp [hc]
  simp only [scanHex, List.cons_append, hskip, takeSign_of_isHex hd, hmark, htake, hdrop]
  rfl

/-- `%x` reads back the low 32 bits of what was printed in hexadecimal. -/
theorem scanHex_toHex {n : Nat} {c : Char} {more : List Char} (hpos : 0 < n) (hn : n < 2 ^ 64)
    (hc : isHex c = false) (hx : c ≠ 'x') (hX : c ≠ 'X') :
    scanHex ⟨toHex n ++ c :: more, false⟩ = (some (n % 2 ^ 32), ⟨c :: more, false⟩) := by
  have hmin : min n (2 ^ 64 - 1) = n := by omega
  rw [scanHex_digits (toHex_ne_nil hpos) (fun _ => isHex_of_mem_toHex) hc hx hX, ofHex_toHex]
  simp only [hexResult, hmin, Bool.false_eq_true, if_false]

/-- White space ends at a character, or at the end of the file. -/
theorem skipSpace_cons {c : Char} {more : List Char} (hc : isSpaceC c = true)
    (hmore : ∀ d ∈ more.head?, isSpaceC d = false) :
    skipSpace ⟨c :: more, false⟩ = ⟨more, more.isEmpty⟩ := by
  cases more with
  | nil => simp [skipSpace, hc]
  | cons d more => simp [skipSpace, hc, hmore d rfl]

end InStream

/-! ## Lines -/

/-- `fgets(line, n + 1, file)`: what it takes from a text, and what it leaves. -/
def fgets : Nat → List Char → List Char × List Char
  | 0, s => ([], s)
  | _ + 1, [] => ([], [])
  | n + 1, c :: s => if c = '\n' then ([c], s) else (c :: (fgets n s).1, (fgets n s).2)

/-- What the calls of `fgets` take, up to the end of the file and at most so many times. -/
def fgetsAll (n : Nat) : Nat → List Char → List (List Char)
  | 0, _ => []
  | _ + 1, [] => []
  | times + 1, s => (fgets n s).1 :: fgetsAll n times (fgets n s).2

/-- Without a newline, as much as fits. -/
theorem fgets_fst_of_notMem {n : Nat} {s : List Char} (h : '\n' ∉ s) :
    (fgets n s).1 = s.take n := by
  induction s generalizing n with
  | nil => cases n <;> simp [fgets]
  | cons c s ih =>
    rw [List.mem_cons, not_or] at h
    cases n with
    | zero => simp [fgets]
    | succ n => simp [fgets, Ne.symm h.1, ih h.2]

/-- A line with its newline, as much of it as fits. -/
theorem fgets_fst_line {n : Nat} {s : List Char} (h : '\n' ∉ s) (rest : List Char) :
    (fgets n (s ++ '\n' :: rest)).1 = (s ++ ['\n']).take n := by
  induction s generalizing n with
  | nil => cases n <;> simp [fgets]
  | cons c s ih =>
    rw [List.mem_cons, not_or] at h
    cases n with
    | zero => simp [fgets]
    | succ n => simp [fgets, Ne.symm h.1, ih h.2]

end DevTools
