import Mathlib.Data.Int.Basic
import Mathlib.Data.Nat.Bitwise
import Mathlib.Tactic.Ring

/-!
# Machine integers

Machine words are integers (or naturals, when unsigned) kept in range by an explicit wrap.
`wrap64` and `wrap32` are two's complement; `toU32` and `toU64` are C's conversions to an
unsigned type.

The second half is about packing bit fields with shifts and `|`: a word whose low `k` bits are
clear, or-ed with a word of `k` bits, is their sum, and the fields can be read back.
-/

namespace DevTools

/-! ## Wrapping -/

/-- The value lies in the range of `int64_t`. -/
def InInt64 (x : Int) : Prop := -2 ^ 63 ≤ x ∧ x < 2 ^ 63

/-- The value lies in the range of `int`. -/
def InInt32 (x : Int) : Prop := -2 ^ 31 ≤ x ∧ x < 2 ^ 31

instance (x : Int) : Decidable (InInt64 x) := inferInstanceAs (Decidable (_ ∧ _))
instance (x : Int) : Decidable (InInt32 x) := inferInstanceAs (Decidable (_ ∧ _))

/-- Two's complement reduction to 64 bits. -/
def wrap64 (x : Int) : Int := (x + 2 ^ 63) % 2 ^ 64 - 2 ^ 63

/-- Two's complement reduction to 32 bits. -/
def wrap32 (x : Int) : Int := (x + 2 ^ 31) % 2 ^ 32 - 2 ^ 31

/-- Conversion to `unsigned int`. -/
def toU32 (x : Int) : Nat := (x % 2 ^ 32).toNat

/-- Conversion to `uint64_t`. -/
def toU64 (x : Int) : Nat := (x % 2 ^ 64).toNat

theorem wrap64_of_inInt64 {x : Int} (h : InInt64 x) : wrap64 x = x := by
  unfold InInt64 at h
  unfold wrap64
  omega

theorem wrap32_of_inInt32 {x : Int} (h : InInt32 x) : wrap32 x = x := by
  unfold InInt32 at h
  unfold wrap32
  omega

theorem inInt64_wrap64 (x : Int) : InInt64 (wrap64 x) := by
  unfold InInt64 wrap64
  omega

theorem inInt32_wrap32 (x : Int) : InInt32 (wrap32 x) := by
  unfold InInt32 wrap32
  omega

theorem toU32_of_range {x : Int} (h0 : 0 ≤ x) (h : x < 2 ^ 32) : (toU32 x : Int) = x := by
  unfold toU32
  omega

theorem toU64_natCast {n : Nat} (h : n < 2 ^ 64) : toU64 n = n := by
  unfold toU64
  omega

/-! ## Shifts and `|` -/

/-- `x << k` for `x` of type `int64_t`. -/
def shl64 (x : Int) (k : Nat) : Int := wrap64 (x * 2 ^ k)

/-- `x << k` for `x` of type `int`. -/
def shl32 (x : Int) (k : Nat) : Int := wrap32 (x * 2 ^ k)

/-- `x << k` for `x` of type `unsigned int`. -/
def shlU32 (x k : Nat) : Nat := x * 2 ^ k % 2 ^ 32

/-- `x | y` for operands converted to `int64_t`. -/
def or64 (x y : Int) : Int := wrap64 (toU64 x ||| toU64 y : Nat)

theorem shl32_of_range {x : Int} {k : Nat} (h : InInt32 (x * 2 ^ k)) : shl32 x k = x * 2 ^ k :=
  wrap32_of_inInt32 h

theorem shlU32_of_range {x k : Nat} (h : x * 2 ^ k < 2 ^ 32) : shlU32 x k = x * 2 ^ k :=
  Nat.mod_eq_of_lt h

/-- On words without a sign bit, `|` is the `|` of naturals. -/
theorem or64_natCast {a b : Nat} (ha : a < 2 ^ 63) (hb : b < 2 ^ 63) :
    or64 a b = (a ||| b : Nat) := by
  have hor : a ||| b < 2 ^ 63 := Nat.or_lt_two_pow ha hb
  unfold or64
  rw [toU64_natCast (by omega), toU64_natCast (by omega)]
  apply wrap64_of_inInt64
  unfold InInt64
  omega

theorem toU64_lt (x : Int) : toU64 x < 2 ^ 64 := by
  unfold toU64
  omega

/-- The bits of `x | y`. -/
theorem toU64_or64 (x y : Int) : toU64 (or64 x y) = toU64 x ||| toU64 y := by
  have hor := Nat.or_lt_two_pow (toU64_lt x) (toU64_lt y)
  have hwrap {n : Nat} (hn : n < 2 ^ 64) : toU64 (wrap64 n) = n := by
    unfold toU64 wrap64
    omega
  exact hwrap hor

theorem or64_assoc (x y z : Int) : or64 (or64 x y) z = or64 x (or64 y z) := by
  have h : toU64 x ||| toU64 y ||| toU64 z = toU64 x ||| (toU64 y ||| toU64 z) :=
    Nat.or_assoc _ _ _
  show wrap64 _ = wrap64 _
  rw [toU64_or64, toU64_or64, h]

/-! ## Packed fields -/

/-- Or-ing a `k`-bit field into a word whose low `k` bits are clear adds it. -/
theorem mul_two_pow_or {a b k : Nat} (hb : b < 2 ^ k) : (a * 2 ^ k) ||| b = a * 2 ^ k + b := by
  rw [Nat.mul_comm]
  exact (Nat.two_pow_add_eq_or_of_lt hb a).symm

/-- The same for a signed word of 64 bits: `m` is its upper part. -/
theorem or64_low {x : Int} {m b k : Nat} (hx : toU64 x = m * 2 ^ k) (hb : b < 2 ^ k)
    (hb64 : b < 2 ^ 64) : or64 x b = wrap64 (x + b) := by
  have hor : toU64 x ||| toU64 b = toU64 x + b := by
    rw [toU64_natCast hb64, hx, mul_two_pow_or hb]
  have hwrap : wrap64 (toU64 x + b : Nat) = wrap64 (x + b) := by
    unfold wrap64 toU64
    omega
  unfold or64
  rw [hor, hwrap]

/-- Or-ing two words with the same low `k` bits clear leaves them clear. -/
theorem mul_two_pow_or_mul_two_pow (a b k : Nat) :
    (a * 2 ^ k) ||| (b * 2 ^ k) = (a ||| b) * 2 ^ k := by
  rw [← Nat.shiftLeft_eq, ← Nat.shiftLeft_eq, ← Nat.shiftLeft_eq, Nat.shiftLeft_or_distrib]

end DevTools
