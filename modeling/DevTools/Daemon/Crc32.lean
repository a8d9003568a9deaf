import DevTools.Daemon.HashMap
import DevTools.Lib.ReflectedCrc

/-!
# The checksum behind the hash map

`_find_hash_index` starts from `crc32(keystring, strlen(keystring))`, which goes through the key a
byte at a time with a table of 256 words.

**Theorem (`crc32_bitwise`).** For every key, the table gives what the division by `0xEDB88320`,
bit by bit, gives. The remainder starts at zero and is not inverted at the end.

**Theorem (`crc32_burst`).** Two different keys of the same length whose differences lie within 32
consecutive bits never have the same checksum. So keys that differ in four neighbouring characters
share an index only by the mixing that comes after it.
-/

namespace DevTools.Daemon

/-- The generator; the words of the table are its multiples. -/
def crc32_poly : Nat := 0xEDB88320

theorem crc32_tab_eq : ∀ i < 256, crc32_tab.getD i 0 = (Crc.shift crc32_poly)^[8] i := by
  decide +kernel

/-- One turn of the loop of `crc32`. -/
theorem crc32_turn (crc : Nat) (c : UInt8) :
    crc32_tab.getD ((crc ^^^ c.toNat) &&& 0xff) 0 ^^^ (crc >>> 8) =
      Crc.byte crc32_poly crc c.toNat := by
  have hlow : (crc ^^^ c.toNat) &&& 0xff < 256 := Nat.and_lt_two_pow _ (show 0xff < 2 ^ 8 by decide)
  rw [crc32_tab_eq _ hlow, Crc.byte_eq_table]

/-- **The table does the division.** -/
theorem crc32_bitwise (s : CStr) :
    crc32 s = Crc.run crc32_poly 0 (s.take (s.length % 2 ^ 32)) := by
  unfold crc32 Crc.run
  congr 1
  funext crc c
  exact crc32_turn crc c

/-- The bits in which two keys differ lie within 32 consecutive ones. -/
def Burst (s t : CStr) : Prop :=
  ∃ j, ∀ i, (Crc.word s).testBit i ≠ (Crc.word t).testBit i → j ≤ i ∧ i < j + 32

/-- **A burst of 32 bits is noticed.** -/
theorem crc32_burst {s t : CStr} (hshort : s.length < 2 ^ 32) (hlen : s.length = t.length)
    (hburst : Burst s t) (hne : s ≠ t) : crc32 s ≠ crc32 t := by
  intro heq
  obtain ⟨j, hj⟩ := hburst
  rw [crc32_bitwise, crc32_bitwise, ← hlen, Nat.mod_eq_of_lt hshort, List.take_length,
    List.take_of_length_le (Nat.le_of_eq hlen.symm)] at heq
  have hpoly : 2 ^ 31 ≤ crc32_poly := by decide
  have hlt : crc32_poly < 2 ^ 32 := by decide
  exact hne (Crc.word_injective hlen (Crc.eq_of_burst hpoly hlt hlen hj heq))

/-- Short keys: any two of the same length are told apart. -/
theorem burst_of_short {s t : CStr} (hlen : s.length = t.length) (hshort : s.length ≤ 4) :
    Burst s t := by
  refine ⟨0, ?_⟩
  intro i hne
  refine ⟨Nat.zero_le i, ?_⟩
  by_contra hi
  have hle : 2 ^ (8 * s.length) ≤ 2 ^ i := Nat.pow_le_pow_right Nat.two_pos (by omega)
  rw [Nat.testBit_eq_false_of_lt ((Crc.word_lt s).trans_le hle),
    Nat.testBit_eq_false_of_lt ((Crc.word_lt t).trans_le (hlen ▸ hle))] at hne
  exact hne rfl

/-- `na` and `ra`. -/
theorem crc32_burst_sample : crc32 [110, 97] ≠ crc32 [114, 97] :=
  crc32_burst (by decide) rfl (burst_of_short rfl (by decide)) (by decide)

end DevTools.Daemon
