import Mathlib.Data.Nat.ModEq
import Mathlib.Tactic.Common

/-!
# Fixed-width unsigned arithmetic on `Nat`

An unsigned machine integer is a natural number below its modulus, and every operation that can
leave that range is followed by a truncation: `u8`, `u16` or `u32`. Keeping the truncation
explicit, instead of hiding it in a word type, leaves every bound in the form `omega` reads.

* **`u8`, `u16`, `u32`** — truncation to 8, 16 and 32 bits.
* **`sub32`** — the difference modulo `2 ^ 32`.
* **`pageBase`** — an address with its low twelve bits cleared (`pageBase_eq`).
-/

namespace Word

/-! ## Truncation

Machine words are numbers, and each operation names the width that it truncates to. -/

/-- Truncation to eight bits. -/
def u8 (n : Nat) : Nat := n % 256

/-- Truncation to sixteen bits. -/
def u16 (n : Nat) : Nat := n % 65536

/-- Truncation to thirty-two bits. -/
def u32 (n : Nat) : Nat := n % 4294967296

/-- The thirty-two-bit difference of two words. -/
def sub32 (a b : Nat) : Nat := u32 (a + (4294967296 - u32 b))

/-- A thirty-two-bit word, read as a signed integer. -/
def int32 (n : Nat) : Int := if u32 n < 2147483648 then u32 n else (u32 n : Int) - 4294967296

theorem u8_of_lt {n : Nat} (h : n < 256) : u8 n = n := Nat.mod_eq_of_lt h

theorem u16_of_lt {n : Nat} (h : n < 65536) : u16 n = n := Nat.mod_eq_of_lt h

theorem u32_of_lt {n : Nat} (h : n < 4294967296) : u32 n = n := Nat.mod_eq_of_lt h

theorem int32_of_lt {n : Nat} (h : n < 2147483648) : int32 n = n := by
  have hword : u32 n = n := u32_of_lt (by omega)
  unfold int32
  rw [hword, if_pos h]

theorem u8_lt (n : Nat) : u8 n < 256 := Nat.mod_lt _ (by decide)

theorem u32_lt (n : Nat) : u32 n < 4294967296 := Nat.mod_lt _ (by decide)

/-- Truncated operands may be truncated once, at the end. -/
theorem u32_add_mul (a b c : Nat) : u32 (u32 a + b * u32 c) = u32 (a + b * c) :=
  (Nat.mod_modEq a _).add ((Nat.mod_modEq c _).mul_left b)

/-- Subtraction does not borrow when the subtrahend is the smaller word. -/
theorem sub32_of_le {a b : Nat} (hb : b ≤ a) (ha : a < 4294967296) : sub32 a b = a - b := by
  unfold sub32 u32
  omega

/-- A sum that is truncated twice is truncated once. -/
theorem u32_u32_add (a b : Nat) : u32 (u32 a + b) = u32 (a + b) := Nat.mod_add_mod a _ b

theorem u32_u32_mul_add (a b c : Nat) : u32 (u32 a * b + c) = u32 (a * b + c) :=
  ((Nat.mod_modEq a _).mul_right b).add_right c

/-- Adding the same word can be undone. -/
theorem u32_add_left_cancel {a b c : Nat} (h : u32 (a + b) = u32 (a + c)) : u32 b = u32 c :=
  Nat.ModEq.add_left_cancel' a h

/-- The minuend may be truncated before. -/
theorem sub32_u32 (a b : Nat) : sub32 (u32 a) b = sub32 a b := u32_u32_add a _

theorem sub32_zero (a : Nat) : sub32 a 0 = u32 a := by
  unfold sub32 u32
  omega

theorem sub32_left_cancel {a b c : Nat} (h : sub32 a c = sub32 b c) : u32 a = u32 b :=
  Nat.ModEq.add_right_cancel' _ h

/-- What was subtracted is added again. -/
theorem u32_sub32_add (a b : Nat) : u32 (sub32 a b + b) = u32 a := by
  unfold sub32 u32
  omega

/-! ## Page alignment -/

/-- `addr & 0xFFFFF000`: the start of the 4096-byte page that holds `addr`. -/
def pageBase (addr : Nat) : Nat := addr &&& 0xFFFFF000

/-- Masking the low twelve bits of a 32-bit address rounds it down to a multiple of 4096. -/
theorem pageBase_eq {addr : Nat} (h : addr < 4294967296) : pageBase addr = addr / 4096 * 4096 := by
  apply Nat.eq_of_testBit_eq
  intro i
  have hmask : Nat.testBit 0xFFFFF000 i = (decide (12 ≤ i) && decide (i < 32)) := by
    rw [show (0xFFFFF000 : Nat) = (2 ^ 20 - 1) <<< 12 from by decide, Nat.testBit_shiftLeft,
      Nat.testBit_two_pow_sub_one]
    by_cases hi : 12 ≤ i
    · simp only [hi, decide_true, Bool.true_and, decide_eq_decide]
      omega
    · simp [hi]
  have hround : addr / 4096 * 4096 = (addr >>> 12) <<< 12 := by
    rw [Nat.shiftRight_eq_div_pow, Nat.shiftLeft_eq]
  rw [pageBase, Nat.testBit_and, hmask, hround, Nat.testBit_shiftLeft, Nat.testBit_shiftRight]
  by_cases hi : 12 ≤ i
  · rw [show 12 + (i - 12) = i from by omega]
    by_cases hlt : i < 32
    · simp [hi, hlt]
    · -- no bit of a 32-bit address stands at position 32 or above
      have hpow : (2 : Nat) ^ 32 ≤ 2 ^ i := Nat.pow_le_pow_right (by decide) (by omega)
      have hbit : addr.testBit i = false := Nat.testBit_lt_two_pow (Nat.lt_of_lt_of_le h hpow)
      simp [hbit]
  · simp [hi]

end Word
