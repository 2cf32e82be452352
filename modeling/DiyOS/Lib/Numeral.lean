import Mathlib.Algebra.Group.Nat.Defs
import Mathlib.Data.List.Basic
import Mathlib.Tactic.Common

/-!
# Numerals

The numeral of a number is the list of the ASCII codes of its digits, the most significant first.

* **`text_of_le`** — the last digit of a numeral.
* **`value_text`** — a numeral is read back in its own base, and is larger in a larger one
  (`lt_value_text`).
* **`head?_text`** — only the numeral of zero begins with a zero.
-/

namespace Numeral

/-- The digit `n`. -/
def digit (n : Nat) : UInt8 := n.digitChar.toUInt8

/-- The numeral of `n` in base `b`, with lower-case digits. -/
def text (b n : Nat) : List UInt8 := (Nat.toDigits b n).map Char.toUInt8

/-- The numeral of `n` in base `b`, with upper-case digits. -/
def upper (b n : Nat) : List UInt8 := (Nat.toDigits b n).map fun c => c.toUpper.toUInt8

/-- The decimal numeral of an integer. -/
def signed (z : Int) : List UInt8 :=
  if z < 0 then '-'.toUInt8 :: text 10 z.natAbs else text 10 z.natAbs

theorem toNat_digit {n : Nat} (h : n < 16) : (digit n).toNat = if n < 10 then n + 48 else n + 87 := by
  decide +revert

section

variable {b n : Nat}

/-- A number below the base is one digit. -/
theorem text_of_lt (h : n < b) : text b n = [digit n] := by
  unfold text
  rw [Nat.toDigits_of_lt_base h]
  rfl

/-- Any other one is the digits of the quotient, and the remainder. -/
theorem text_of_le (hb : 1 < b) (h : b ≤ n) : text b n = text b (n / b) ++ [digit (n % b)] := by
  unfold text
  rw [Nat.toDigits_of_base_le hb h, List.map_append]
  rfl

theorem upper_of_lt (h : n < b) : upper b n = [n.digitChar.toUpper.toUInt8] := by
  unfold upper
  rw [Nat.toDigits_of_lt_base h]
  rfl

theorem upper_of_le (hb : 1 < b) (h : b ≤ n) :
    upper b n = upper b (n / b) ++ [(n % b).digitChar.toUpper.toUInt8] := by
  unfold upper
  rw [Nat.toDigits_of_base_le hb h, List.map_append]
  rfl

theorem div_lt_of_le (hb : 1 < b) (h : b ≤ n) : n / b < n := Nat.div_lt_self (by omega) hb

/-- The characters of a numeral are digits. -/
theorem exists_digit_of_mem (hb : 1 < b) {c : UInt8} (hc : c ∈ text b n) : ∃ d < b, c = digit d := by
  induction n using Nat.strongRecOn with
  | ind n ih =>
    by_cases h : n < b
    · rw [text_of_lt h, List.mem_singleton] at hc
      exact ⟨n, h, hc⟩
    · have hle := Nat.le_of_not_lt h
      rw [text_of_le hb hle, List.mem_append, List.mem_singleton] at hc
      rcases hc with hc | hc
      · exact ih (n / b) (div_lt_of_le hb hle) hc
      · exact ⟨n % b, Nat.mod_lt _ (by omega), hc⟩

/-- A numeral holds digits only. -/
theorem toNat_of_mem (hb : 1 < b) (hle : b ≤ 16) {c : UInt8} (hc : c ∈ text b n) : 48 ≤ c.toNat := by
  obtain ⟨d, hd, rfl⟩ := exists_digit_of_mem hb hc
  rw [toNat_digit (by omega)]
  split <;> omega

theorem length_text_pos (b n : Nat) : 0 < (text b n).length := by
  unfold text
  rw [List.length_map]
  exact Nat.length_toDigits_pos

/-- A number below the `k`-th power of the base has at most `k` digits. -/
theorem length_text_le (hb : 1 < b) {k : Nat} (hk : 0 < k) (h : n < b ^ k) : (text b n).length ≤ k := by
  unfold text
  rw [List.length_map]
  exact (Nat.length_toDigits_le_iff hb hk).mpr h

end

/-! ## Values

The value of a string of digits, with the one that counts most first. -/

/-- What a character is worth as a digit; a blank is worth nothing. -/
def digitValue (c : UInt8) : Nat :=
  if 97 ≤ c.toNat then c.toNat - 87 else if 65 ≤ c.toNat then c.toNat - 55 else c.toNat - 48

/-- The number that the characters stand for in base `b`. -/
def value (b : Nat) (cs : List UInt8) : Nat := cs.foldl (fun n c => b * n + digitValue c) 0

theorem value_append_singleton (b : Nat) (cs : List UInt8) (c : UInt8) :
    value b (cs ++ [c]) = b * value b cs + digitValue c := by
  unfold value
  rw [List.foldl_append]
  rfl

theorem value_singleton (b : Nat) (c : UInt8) : value b [c] = digitValue c := by
  show b * 0 + digitValue c = digitValue c
  omega

/-- Padding with a character that is worth nothing. -/
theorem value_replicate_append (b k : Nat) {c : UInt8} (hc : digitValue c = 0) (cs : List UInt8) :
    value b (List.replicate k c ++ cs) = value b cs := by
  induction k with
  | zero => rfl
  | succ k ih =>
    rw [← ih]
    unfold value
    rw [List.replicate_succ, List.cons_append, List.foldl_cons, hc]
    rfl

/-- A digit has the value that it was written for. -/
theorem digitValue_digit {n : Nat} (h : n < 16) : digitValue (digit n) = n := by
  decide +revert

theorem digitValue_upper {n : Nat} (h : n < 16) : digitValue n.digitChar.toUpper.toUInt8 = n := by
  decide +revert

section

variable {b n : Nat}

/-- In upper case as well. -/
theorem value_upper (hb : 1 < b) (hle : b ≤ 16) (n : Nat) : value b (upper b n) = n := by
  induction n using Nat.strongRecOn with
  | ind n ih =>
    by_cases h : n < b
    · rw [upper_of_lt h, value_singleton, digitValue_upper (by omega)]
    · have hbn := Nat.le_of_not_lt h
      have hmod : n % b < b := Nat.mod_lt _ (by omega)
      rw [upper_of_le hb hbn, value_append_singleton, ih _ (div_lt_of_le hb hbn),
        digitValue_upper (by omega)]
      exact Nat.div_add_mod n b

/-- **A numeral is read back**: digits have the value of the number they were written for. -/
theorem value_text (hb : 1 < b) (hle : b ≤ 16) (n : Nat) : value b (text b n) = n := by
  induction n using Nat.strongRecOn with
  | ind n ih =>
    by_cases h : n < b
    · rw [text_of_lt h, value_singleton, digitValue_digit (by omega)]
    · have hbn := Nat.le_of_not_lt h
      have hmod : n % b < b := Nat.mod_lt _ (by omega)
      rw [text_of_le hb hbn, value_append_singleton, ih _ (div_lt_of_le hb hbn), digitValue_digit (by omega)]
      exact Nat.div_add_mod n b

/-- So different numbers have different numerals. -/
theorem text_injective (hb : 1 < b) (hle : b ≤ 16) : Function.Injective (text b) := fun n k h => by
  rw [← value_text hb hle n, h, value_text hb hle k]

/-- No leading zero. -/
theorem head?_text (hb : 1 < b) (hle : b ≤ 16) (hn : n ≠ 0) : (text b n).head? ≠ some (digit 0) := by
  induction n using Nat.strongRecOn with
  | ind n ih =>
    by_cases h : n < b
    · rw [text_of_lt h, List.head?_cons]
      intro heq
      have hvalue := congrArg digitValue (Option.some.inj heq)
      rw [digitValue_digit (by omega), digitValue_digit (by decide)] at hvalue
      exact hn hvalue
    · have hbn := Nat.le_of_not_lt h
      have hhead := ih (n / b) (div_lt_of_le hb hbn) (Nat.pos_iff_ne_zero.mp (Nat.div_pos hbn (by omega)))
      rw [text_of_le hb hbn, List.head?_append_of_ne_nil _ (List.ne_nil_of_length_pos (length_text_pos _ _))]
      exact hhead

/-- Read in a base that is not smaller, a numeral stands for no less. -/
theorem le_value_text (hb : 1 < b) (hle : b ≤ 16) {b' : Nat} (hbb : b ≤ b') (n : Nat) :
    n ≤ value b' (text b n) := by
  induction n using Nat.strongRecOn with
  | ind n ih =>
    by_cases h : n < b
    · have hvalue : value b' (text b n) = n := by
        rw [text_of_lt h, value_singleton, digitValue_digit (by omega)]
      exact Nat.le_of_eq hvalue.symm
    · have hbn := Nat.le_of_not_lt h
      have hmod : n % b < b := Nat.mod_lt _ (by omega)
      have hmul := Nat.mul_le_mul hbb (ih _ (div_lt_of_le hb hbn))
      have hdiv := Nat.div_add_mod n b
      rw [text_of_le hb hbn, value_append_singleton, digitValue_digit (by omega)]
      omega

/-- Read in a larger base, a numeral of two digits or more stands for more. -/
theorem lt_value_text (hb : 1 < b) (hle : b ≤ 16) {b' : Nat} (hbb : b < b') (h : b ≤ n) :
    n < value b' (text b n) := by
  have hmod : n % b < b := Nat.mod_lt _ (by omega)
  have hpos : 0 < n / b := Nat.div_pos h (by omega)
  have hhigh := le_value_text hb hle (Nat.le_of_lt hbb) (n / b)
  have hdiv := Nat.div_add_mod n b
  have hmul : b * (n / b) < b' * value b' (text b (n / b)) :=
    Nat.lt_of_lt_of_le (Nat.mul_lt_mul_of_pos_right hbb hpos) (Nat.mul_le_mul_left b' hhigh)
  rw [text_of_le hb h, value_append_singleton, digitValue_digit (by omega)]
  omega

end

end Numeral
