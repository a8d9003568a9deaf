import Mathlib.Algebra.Group.Nat.Defs
import Mathlib.Data.Nat.Bitwise
import Mathlib.Logic.Function.Iterate

/-!
# Cyclic redundancy checks, least significant bit first

A remainder is a number, and the generator `poly` is a number without its leading coefficient. One
step shifts the remainder down and subtracts `poly` when a one falls out. A byte is put into the
remainder and followed by eight steps.

* `shift_xor`: a step is linear in exclusive or.
* `run_eq`: all bytes can be put in at once, as one long number, and the steps done afterwards.
* `byte_eq_table`: the eight steps of a byte come from a table of 256 remainders.
* `eq_of_burst`: with a generator of width `w`, a change of at most `w` consecutive bits changes
  the remainder.
-/

namespace DevTools.Crc

variable (poly : Nat)

/-- One step of the division. -/
def shift (x : Nat) : Nat := if x.testBit 0 then (x >>> 1) ^^^ poly else x >>> 1

/-- One byte. -/
def byte (crc c : Nat) : Nat := (shift poly)^[8] (crc ^^^ c)

def run (crc : Nat) (bytes : List UInt8) : Nat :=
  bytes.foldl (fun crc c => byte poly crc c.toNat) crc

/-- The bytes as one number, the first one lowest. -/
def word : List UInt8 → Nat
  | [] => 0
  | c :: bytes => c.toNat ^^^ (word bytes <<< 8)

variable {poly}

/-! ## Linearity -/

theorem shift_xor (x y : Nat) : shift poly (x ^^^ y) = shift poly x ^^^ shift poly y := by
  unfold shift
  rw [Nat.testBit_xor, Nat.shiftRight_xor_distrib]
  cases x.testBit 0 <;> cases y.testBit 0 <;>
    simp only [Bool.xor_false, Bool.xor_true, Bool.not_false, Bool.not_true, if_true, if_false,
      Bool.false_eq_true]
  · rw [Nat.xor_assoc]
  · rw [Nat.xor_assoc, Nat.xor_assoc, Nat.xor_comm poly]
  · rw [Nat.xor_assoc, Nat.xor_left_comm poly, Nat.xor_self, Nat.xor_zero]

theorem iterate_xor (n x y : Nat) :
    (shift poly)^[n] (x ^^^ y) = (shift poly)^[n] x ^^^ (shift poly)^[n] y := by
  induction n generalizing x y with
  | zero => rfl
  | succ n ih =>
    rw [Function.iterate_succ_apply, shift_xor, ih]
    rfl

/-- Zeros below are shifted out. -/
theorem iterate_shiftLeft (n x : Nat) : (shift poly)^[n] (x <<< n) = x := by
  induction n with
  | zero => rfl
  | succ n ih =>
    have heven : (x <<< (n + 1)).testBit 0 = false := by simp
    have hhalf : (x <<< (n + 1)) >>> 1 = x <<< n := by
      rw [Nat.shiftLeft_succ, Nat.shiftRight_one, Nat.mul_div_cancel_left _ Nat.two_pos]
    rw [Function.iterate_succ_apply, shift, heven, if_neg Bool.false_ne_true, hhalf, ih]

/-! ## Bytes -/

/-- The steps can wait until all bytes are in. -/
theorem run_eq (crc : Nat) (bytes : List UInt8) :
    run poly crc bytes = (shift poly)^[8 * bytes.length] (crc ^^^ word bytes) := by
  induction bytes generalizing crc with
  | nil => exact (Nat.xor_zero crc).symm
  | cons c bytes ih =>
    have hsteps : 8 * (c :: bytes).length = 8 * bytes.length + 8 := rfl
    calc run poly crc (c :: bytes)
        = (shift poly)^[8 * bytes.length] (byte poly crc c.toNat ^^^ word bytes) := ih _
      _ = (shift poly)^[8 * bytes.length]
            ((shift poly)^[8] (crc ^^^ c.toNat) ^^^ (shift poly)^[8] (word bytes <<< 8)) := by
          rw [iterate_shiftLeft]
          rfl
      _ = (shift poly)^[8 * bytes.length]
            ((shift poly)^[8] (crc ^^^ word (c :: bytes))) := by
          rw [← iterate_xor, Nat.xor_assoc]
          rfl
      _ = _ := by rw [hsteps, Function.iterate_add_apply]

theorem word_lt (bytes : List UInt8) : word bytes < 2 ^ (8 * bytes.length) := by
  induction bytes with
  | nil => exact Nat.one_pos
  | cons c bytes ih =>
    have hpow : 2 ^ (8 * (c :: bytes).length) = 2 ^ (8 * bytes.length) * 2 ^ 8 := by
      rw [← Nat.pow_add]
      rfl
    have hhigh : word bytes <<< 8 < 2 ^ (8 * (c :: bytes).length) := by
      rw [Nat.shiftLeft_eq, hpow]
      exact Nat.mul_lt_mul_of_pos_right ih (by decide)
    have hlow : c.toNat < 2 ^ (8 * (c :: bytes).length) := by
      have hpos := Nat.two_pow_pos (8 * bytes.length)
      have hbyte := c.toNat_lt
      rw [hpow]
      omega
    exact Nat.xor_lt_two_pow hlow hhigh

theorem split_byte (x : Nat) : x = (x &&& 0xff) ^^^ ((x >>> 8) <<< 8) := by
  have hmask : (0xff : Nat) = 2 ^ 8 - 1 := rfl
  refine Nat.eq_of_testBit_eq ?_
  intro i
  rw [Nat.testBit_xor, Nat.testBit_and, hmask, Nat.testBit_two_pow_sub_one, Nat.testBit_shiftLeft,
    Nat.testBit_shiftRight]
  by_cases hi : i < 8
  · simp [hi, Nat.not_le.mpr hi]
  · have hle : 8 ≤ i := Nat.le_of_not_lt hi
    simp [hi, hle]

/-- A byte at a time: what the low byte comes to, and the rest moved down. -/
theorem byte_eq_table (crc : Nat) (c : UInt8) :
    byte poly crc c.toNat =
      (shift poly)^[8] ((crc ^^^ c.toNat) &&& 0xff) ^^^ (crc >>> 8) := by
  have hhigh : (crc ^^^ c.toNat) >>> 8 = crc >>> 8 := by
    rw [Nat.shiftRight_xor_distrib, Nat.shiftRight_eq_div_pow c.toNat,
      Nat.div_eq_of_lt c.toNat_lt, Nat.xor_zero]
  unfold byte
  conv_lhs => rw [split_byte (crc ^^^ c.toNat)]
  rw [iterate_xor, iterate_shiftLeft, hhigh]

/-! ## Bursts -/

section

variable {w : Nat}

/-- No other remainder goes to zero. -/
theorem eq_zero_of_iterate (hpoly : 2 ^ w ≤ poly) {n x : Nat}
    (hlt : poly < 2 ^ (w + 1)) (hx : x < 2 ^ (w + 1)) (h : (shift poly)^[n] x = 0) : x = 0 := by
  induction n generalizing x with
  | zero => exact h
  | succ n ih =>
    rw [Function.iterate_succ_apply] at h
    have hhalf : x >>> 1 < 2 ^ w := by
      rw [Nat.shiftRight_one]
      rw [Nat.pow_succ] at hx
      omega
    have hwide : x >>> 1 < 2 ^ (w + 1) := by
      rw [Nat.pow_succ]
      omega
    by_cases hodd : x.testBit 0 = true
    · -- the leading bit of `poly` stays
      rw [shift, if_pos hodd] at h
      have hzero := ih (Nat.xor_lt_two_pow hwide hlt) h
      have heq : x >>> 1 = poly := Nat.xor_eq_zero_iff.mp hzero
      omega
    · rw [shift, if_neg hodd] at h
      have hzero := ih hwide h
      rw [Nat.testBit_zero] at hodd
      rw [Nat.shiftRight_one] at hzero
      simp only [decide_eq_true_eq] at hodd
      omega

/-- Bytes of the same number that differ in a burst of at most `w + 1` bits are told apart. -/
theorem eq_of_burst (hpoly : 2 ^ w ≤ poly) (hlt : poly < 2 ^ (w + 1)) {s t : List UInt8}
    (hlen : s.length = t.length) {j : Nat}
    (hburst : ∀ i, (word s).testBit i ≠ (word t).testBit i → j ≤ i ∧ i < j + (w + 1))
    {crc : Nat} (hrun : run poly crc s = run poly crc t) : word s = word t := by
  by_cases hj : 8 * s.length < j
  · refine Nat.eq_of_testBit_eq ?_
    intro i
    by_contra hne
    have hle : 2 ^ (8 * s.length) ≤ 2 ^ i := by
      refine Nat.pow_le_pow_right Nat.two_pos ?_
      have hi := (hburst i hne).1
      omega
    rw [Nat.testBit_eq_false_of_lt ((word_lt s).trans_le hle),
      Nat.testBit_eq_false_of_lt ((word_lt t).trans_le (hlen ▸ hle))] at hne
    exact hne rfl
  -- the difference is a number of `w + 1` bits, moved up by `j`
  have hdiff : word s ^^^ word t = ((word s ^^^ word t) >>> j) <<< j := by
    refine Nat.eq_of_testBit_eq ?_
    intro i
    rw [Nat.testBit_shiftLeft, Nat.testBit_shiftRight, Nat.testBit_xor]
    by_cases hi : j ≤ i
    · simp [hi]
    · have hsame : (word s).testBit i = (word t).testBit i := by
        by_contra hne
        exact hi (hburst i hne).1
      simp [hi, hsame]
  have hsmall : (word s ^^^ word t) >>> j < 2 ^ (w + 1) := by
    refine Nat.lt_pow_two_of_testBit _ ?_
    intro i hi
    rw [Nat.testBit_shiftRight, Nat.testBit_xor]
    have hsame : (word s).testBit (j + i) = (word t).testBit (j + i) := by
      by_contra hne
      have hin := (hburst (j + i) hne).2
      omega
    rw [hsame, Bool.xor_self]
  have hzero : (shift poly)^[8 * s.length] (word s ^^^ word t) = 0 := by
    rw [run_eq, run_eq, ← hlen, iterate_xor, iterate_xor _ crc, Nat.xor_right_inj] at hrun
    rw [iterate_xor, hrun, Nat.xor_self]
  obtain ⟨k, hk⟩ := Nat.exists_eq_add_of_le' (Nat.le_of_not_lt hj)
  rw [hdiff, hk, Function.iterate_add_apply, iterate_shiftLeft] at hzero
  have hnone := eq_zero_of_iterate hpoly hlt hsmall hzero
  rw [hnone, Nat.zero_shiftLeft] at hdiff
  exact Nat.xor_eq_zero_iff.mp hdiff

end

/-- The number determines the bytes. -/
theorem word_injective {s t : List UInt8} (hlen : s.length = t.length) (h : word s = word t) :
    s = t := by
  induction s generalizing t with
  | nil => exact (List.eq_nil_of_length_eq_zero hlen.symm).symm
  | cons c s ih =>
    cases t with
    | nil => cases hlen
    | cons d t =>
      have hbit : ∀ i,
          ((c.toNat ^^^ word s <<< 8).testBit i = (d.toNat ^^^ word t <<< 8).testBit i) :=
        fun i => congrArg (·.testBit i) h
      have hhead : c.toNat = d.toNat := by
        refine Nat.eq_of_testBit_eq ?_
        intro i
        by_cases hi : i < 8
        · simpa [Nat.testBit_xor, Nat.testBit_shiftLeft, Nat.not_le.mpr hi] using hbit i
        · have hle : 2 ^ 8 ≤ 2 ^ i := Nat.pow_le_pow_right Nat.two_pos (Nat.le_of_not_lt hi)
          rw [Nat.testBit_eq_false_of_lt (Nat.lt_of_lt_of_le c.toNat_lt hle),
            Nat.testBit_eq_false_of_lt (Nat.lt_of_lt_of_le d.toNat_lt hle)]
      have htail : word s = word t := by
        refine Nat.eq_of_testBit_eq ?_
        intro i
        have hhigh := hbit (i + 8)
        rw [hhead] at hhigh
        simpa [Nat.testBit_xor, Nat.testBit_shiftLeft] using hhigh
      rw [UInt8.toNat_inj.mp hhead, ih (Nat.succ.inj hlen) htail]

end DevTools.Crc
