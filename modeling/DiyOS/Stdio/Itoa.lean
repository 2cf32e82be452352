import DiyOS.Basic
import DiyOS.Lib.Memory
import DiyOS.Lib.Numeral

/-!
# Numbers in text (`lib/string/itoa.c`)

`itoa` stores the digits of a number from the last one on, and then turns them round.

* **`itoa_text`** — `itoa` leaves the unsigned numeral of its argument in the buffer.
-/

namespace DiyOS

/-! ## `itoa`

Two loops: one divides and stores, the other exchanges the first and the last byte, the second and the last but
one, up to the middle. The first is `Numeral.text` backwards. -/

/-- The loop of `itoa` that stores the digits of `ud` from `p` on, the last digit first. -/
def itoaDigits (divisor : UInt32) : Nat → Mem → Nat → UInt32 → Except Halt (Mem × Nat)
  | 0, _, _, _ => .error .loops
  | fuel + 1, buf, p, ud =>
    let remainder := (ud % divisor).toNat
    let buf := buf.writeByte p
      (UInt8.ofNat (if remainder < 10 then remainder + 48 else remainder + 97 - 10))
    let ud := ud / divisor
    if ud ≠ 0 then itoaDigits divisor fuel buf (p + 1) ud else .ok (buf, p + 1)

/-- The loop of `itoa` that turns the digits between `p1` and `p2` round. -/
def itoaReverse : Nat → Mem → Nat → Nat → Except Halt Mem
  | 0, _, _, _ => .error .loops
  | fuel + 1, buf, p1, p2 =>
    if p1 < p2 then
      let tmp := buf p1
      itoaReverse fuel ((buf.writeByte p1 (buf p2)).writeByte p2 tmp) (p1 + 1) (p2 - 1)
    else .ok buf

/-- `itoa`, with offsets in `buf` for its pointers; `base` is the letter of the conversion. -/
def itoa (fuel : Nat) (buf : Mem) (base : UInt8) (d : UInt32) : Except Halt Mem :=
  -- `d` is unsigned, so the test for a sign is never true
  let (buf, start, ud, divisor) :=
    if base = 'd'.toUInt8 ∧ d < 0 then (buf.writeByte 0 '-'.toUInt8, 1, -d, 10)
    else (buf, 0, d, if base = 'x'.toUInt8 then 16 else 10)
  match itoaDigits divisor fuel buf start ud with
  | .error e => .error e
  | .ok (buf, p) => itoaReverse fuel (buf.writeByte p 0) start (p - 1)

/-- The base that `itoa` chooses for a letter. -/
def itoaBase (base : UInt8) : Nat := if base = 'x'.toUInt8 then 16 else 10

theorem digit_eq {r : Nat} (h : r < 16) :
    UInt8.ofNat (if r < 10 then r + 48 else r + 97 - 10) = Numeral.digit r := by
  decide +revert

/-- The digits stand in the buffer the wrong way round. -/
theorem itoaDigits_text {divisor : UInt32} (hb : 1 < divisor.toNat) (hle : divisor.toNat ≤ 16)
    {fuel : Nat} (buf : Mem) (p : Nat) (ud : UInt32)
    (hfuel : (Numeral.text divisor.toNat ud.toNat).length ≤ fuel) :
    ∃ buf', itoaDigits divisor fuel buf p ud
        = .ok (buf', p + (Numeral.text divisor.toNat ud.toNat).length)
      ∧ buf'.bytes p (Numeral.text divisor.toNat ud.toNat).length
        = (Numeral.text divisor.toNat ud.toNat).reverse
      ∧ ∀ a, a < p ∨ p + (Numeral.text divisor.toNat ud.toNat).length ≤ a → buf' a = buf a := by
  induction fuel generalizing buf p ud with
  | zero =>
    have hpos := Numeral.length_text_pos divisor.toNat ud.toNat
    omega
  | succ fuel ih =>
    have hmod : (ud % divisor).toNat = ud.toNat % divisor.toNat := UInt32.toNat_mod ud divisor
    have hdiv : (ud / divisor).toNat = ud.toNat / divisor.toNat := UInt32.toNat_div ud divisor
    have hlt : ud.toNat % divisor.toNat < divisor.toNat := Nat.mod_lt _ (by omega)
    have hzero : ud / divisor = 0 ↔ ud.toNat < divisor.toNat := by
      rw [← UInt32.toNat_inj, hdiv]
      exact Nat.div_eq_zero_iff_lt (by omega)
    rw [itoaDigits]
    simp only [hmod, digit_eq (show ud.toNat % divisor.toNat < 16 by omega)]
    by_cases h : ud.toNat < divisor.toNat
    · -- the last digit
      rw [if_neg (not_not.mpr (hzero.mpr h)), Numeral.text_of_lt h, Nat.mod_eq_of_lt h]
      refine ⟨_, rfl, ?_, ?_⟩
      · show (buf.writeByte p _).bytes p (0 + 1) = _
        rw [Mem.bytes_succ, Mem.writeByte_self]
        rfl
      · intro a ha
        simp only [List.length_singleton] at ha
        exact Mem.writeByte_of_ne _ _ (by omega)
    · have hbn := Nat.le_of_not_lt h
      rw [if_pos fun heq => h (hzero.mp heq)]
      rw [Numeral.text_of_le hb hbn, List.length_append, List.length_singleton, ← hdiv] at hfuel ⊢
      obtain ⟨buf', hloop, hbytes, hframe⟩ := ih
        (buf.writeByte p (Numeral.digit (ud.toNat % divisor.toNat))) (p + 1) (ud / divisor) (by omega)
      refine ⟨buf', ?_, ?_, ?_⟩
      · rw [hloop]
        exact congrArg (fun n => Except.ok (buf', n)) (by omega)
      · rw [Mem.bytes_succ, hbytes, hframe p (by omega), Mem.writeByte_self, List.reverse_append]
        rfl
      · intro a ha
        rw [hframe a (by omega)]
        exact Mem.writeByte_of_ne _ _ (by omega)

/-- The bytes between the two pointers are turned round. -/
theorem itoaReverse_apply {fuel : Nat} (buf : Mem) (p1 p2 : Nat) (hpos : 0 < fuel)
    (hfuel : p2 < fuel + p1) :
    ∃ buf', itoaReverse fuel buf p1 p2 = .ok buf'
      ∧ ∀ a, buf' a = if p1 ≤ a ∧ a ≤ p2 then buf (p1 + p2 - a) else buf a := by
  induction fuel generalizing buf p1 p2 with
  | zero => omega
  | succ fuel ih =>
    rw [itoaReverse]
    by_cases h : p1 < p2
    · rw [if_pos h]
      obtain ⟨buf', hloop, happly⟩ := ih ((buf.writeByte p1 (buf p2)).writeByte p2 (buf p1)) (p1 + 1)
        (p2 - 1) (by omega) (by omega)
      refine ⟨buf', hloop, fun a => ?_⟩
      rw [happly a]
      by_cases hinner : p1 + 1 ≤ a ∧ a ≤ p2 - 1
      · rw [if_pos hinner, if_pos (by omega), Mem.writeByte_of_ne _ _ (by omega),
          Mem.writeByte_of_ne _ _ (by omega)]
        exact congrArg buf (by omega)
      · rw [if_neg hinner]
        -- the two bytes that are exchanged, or a byte outside
        by_cases hfirst : a = p1
        · rw [hfirst, Mem.writeByte_of_ne _ _ (by omega), Mem.writeByte_self, if_pos (by omega)]
          exact congrArg buf (by omega)
        · by_cases hlast : a = p2
          · rw [hlast, Mem.writeByte_self, if_pos (by omega)]
            exact congrArg buf (by omega)
          · rw [Mem.writeByte_of_ne _ _ hlast, Mem.writeByte_of_ne _ _ hfirst, if_neg (by omega)]
    · rw [if_neg h]
      refine ⟨buf, rfl, fun a => ?_⟩
      by_cases hmid : p1 ≤ a ∧ a ≤ p2
      · rw [if_pos hmid]
        exact congrArg buf (by omega)
      · rw [if_neg hmid]

/-- Bytes in the other order. -/
theorem bytes_reverse {buf buf' : Mem} {p n : Nat} (h : ∀ k < n, buf' (p + k) = buf (p + (n - 1 - k))) :
    buf'.bytes p n = (buf.bytes p n).reverse := by
  apply List.ext_getElem
  · rw [List.length_reverse, Mem.length_bytes, Mem.length_bytes]
  · intro k hk _
    rw [Mem.length_bytes] at hk
    rw [List.getElem_reverse, Mem.getElem_bytes, Mem.getElem_bytes, Mem.length_bytes]
    exact h k hk

theorem length_decimal_le (d : UInt32) : (Numeral.text 10 d.toNat).length ≤ 10 :=
  Numeral.length_text_le (by decide) (by decide) (Nat.lt_trans d.toNat_lt (by decide))

theorem length_hexadecimal_le (d : UInt32) : (Numeral.text 16 d.toNat).length ≤ 8 :=
  Numeral.length_text_le (by decide) (by decide) d.toNat_lt

theorem itoaBase_eq (base : UInt8) : itoaBase base = 16 ∨ itoaBase base = 10 := by
  unfold itoaBase
  split <;> simp

/-- **`itoa`** leaves the unsigned numeral of `d` and a NUL, and touches nothing behind them: eleven bytes
are enough. -/
theorem itoa_text {fuel : Nat} (hfuel : 10 < fuel) (buf : Mem) (base : UInt8) (d : UInt32) :
    ∃ buf', itoa fuel buf base d = .ok buf'
      ∧ buf'.bytes 0 (Numeral.text (itoaBase base) d.toNat).length
        = Numeral.text (itoaBase base) d.toNat
      ∧ buf' (Numeral.text (itoaBase base) d.toNat).length = 0
      ∧ (Numeral.text (itoaBase base) d.toNat).length ≤ 10
      ∧ ∀ a, (Numeral.text (itoaBase base) d.toNat).length < a → buf' a = buf a := by
  have hdivisor : ((if base = 'x'.toUInt8 then 16 else 10 : UInt32)).toNat = itoaBase base := by
    unfold itoaBase
    split <;> rfl
  have hbase := itoaBase_eq base
  have hlength : (Numeral.text (itoaBase base) d.toNat).length ≤ 10 := by
    rcases hbase with h | h <;> rw [h]
    · exact Nat.le_trans (length_hexadecimal_le d) (by decide)
    · exact length_decimal_le d
  have hpos := Numeral.length_text_pos (itoaBase base) d.toNat
  obtain ⟨buf₁, hdigits, hbytes, hframe⟩ := @itoaDigits_text (if base = 'x'.toUInt8 then 16 else 10)
    (by omega) (by omega) fuel buf 0 d (by rw [hdivisor]; omega)
  rw [hdivisor] at hdigits hbytes hframe
  unfold itoa
  rw [if_neg fun h => absurd h.2 (UInt32.not_lt_zero)]
  simp only [hdigits]
  rw [Nat.zero_add] at hdigits hframe ⊢
  generalize Numeral.text (itoaBase base) d.toNat = digits at *
  obtain ⟨buf', hreverse, happly⟩ := itoaReverse_apply (buf₁.writeByte digits.length 0) 0
    (digits.length - 1) (show 0 < fuel by omega) (by omega)
  refine ⟨buf', hreverse, ?_, ?_, hlength, ?_⟩
  · rw [@bytes_reverse buf₁ buf' 0 digits.length, hbytes, List.reverse_reverse]
    intro k hk
    rw [happly, if_pos (by omega), Mem.writeByte_of_ne _ _ (by omega)]
    exact congrArg buf₁ (by omega)
  · rw [happly, if_neg (by omega), Mem.writeByte_self]
  · intro a ha
    rw [happly, if_neg (by omega), Mem.writeByte_of_ne _ _ (by omega)]
    exact hframe a (by omega)

/-- The digits `0` to `9` and `a` to `f`. -/
def HexDigit (c : UInt8) : Prop := '0'.toUInt8 ≤ c ∧ c ≤ '9'.toUInt8 ∨ 'a'.toUInt8 ≤ c ∧ c ≤ 'f'.toUInt8

/-- The digits of base 16 are what a scanner takes for one. -/
theorem hexDigit_digit {n : Nat} (h : n < 16) : HexDigit (Numeral.digit n) := by
  have hall : ∀ k < 16, '0'.toUInt8 ≤ Numeral.digit k ∧ Numeral.digit k ≤ '9'.toUInt8
      ∨ 'a'.toUInt8 ≤ Numeral.digit k ∧ Numeral.digit k ≤ 'f'.toUInt8 := by decide
  exact hall n h

/-- **Rendering a number.** For each letter, the strings that `itoa` leaves for the numbers differ; each is
NUL-terminated, has one to ten digits and no leading zero, and is read back in the base of the letter, which
is 10 for `u` and 16 for `x`. Nothing is written behind the terminator. -/
theorem itoa_invertible (base : UInt8) :
    itoaBase 'u'.toUInt8 = 10 ∧ itoaBase 'x'.toUInt8 = 16
      ∧ ∃ string : UInt32 → List UInt8, Function.Injective string ∧ ∀ d (buf : Mem), ∃ buf',
        Settles (fun fuel => itoa fuel buf base d) (.ok buf')
          ∧ buf'.bytes 0 (string d).length = string d ∧ buf' (string d).length = 0
          ∧ 1 ≤ (string d).length ∧ (string d).length ≤ 10
          ∧ (∀ c ∈ string d, HexDigit c) ∧ (d ≠ 0 → (string d).head? ≠ some '0'.toUInt8)
          ∧ Numeral.value (itoaBase base) (string d) = d.toNat
          ∧ ∀ a, (string d).length < a → buf' a = buf a := by
  have hb : 1 < itoaBase base := by
    have hbase := itoaBase_eq base
    omega
  have hle : itoaBase base ≤ 16 := by
    have hbase := itoaBase_eq base
    omega
  refine ⟨by decide, by decide, fun d => Numeral.text (itoaBase base) d.toNat, ?_, fun d buf => ?_⟩
  · exact fun d d' h => UInt32.toNat_inj.mp (Numeral.text_injective hb hle h)
  · obtain ⟨buf', hitoa, hbytes, hnul, hlength, hframe⟩ := itoa_text (show 10 < 11 by decide) buf base d
    refine ⟨buf', ⟨11, fun fuel hfuel => ?_⟩, hbytes, hnul, Numeral.length_text_pos _ _, hlength, ?_, ?_, ?_,
      hframe⟩
    · -- with more fuel, the same bytes are left
      obtain ⟨buf'', hitoa', hbytes', hnul', _, hframe'⟩ :=
        itoa_text (show 10 < fuel from hfuel) buf base d
      refine hitoa'.trans (congrArg Except.ok (funext fun a => ?_))
      rcases Nat.lt_trichotomy a (Numeral.text (itoaBase base) d.toNat).length with hlt | heq | hgt
      · have hget := List.getElem_of_eq (hbytes'.trans hbytes.symm) (by rw [Mem.length_bytes]; exact hlt)
        rw [Mem.getElem_bytes, Mem.getElem_bytes, Nat.zero_add] at hget
        exact hget
      · rw [heq, hnul, hnul']
      · rw [hframe a hgt, hframe' a hgt]
    · intro c hc
      obtain ⟨k, hk, rfl⟩ := Numeral.exists_digit_of_mem hb hc
      exact hexDigit_digit (Nat.lt_of_lt_of_le hk hle)
    · intro hd
      refine Numeral.head?_text hb hle fun hzero => hd ?_
      exact UInt32.toNat_inj.mp hzero
    · exact Numeral.value_text hb hle d.toNat

end DiyOS
