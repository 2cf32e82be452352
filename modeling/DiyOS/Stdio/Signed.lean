import DiyOS.Stdio.Printf

/-!
# Signed and upper-case numbers (`lib/stdio/printf.c`, `kernel/debug_printf.c`)

`itoa` takes its argument as unsigned, and knows of no letter `X`.

* **`formatOutput_number`** — what is printed for `%d` and `%X`.
* **`printf_signed_upper_iff`** — for which arguments that is right.
-/

namespace DiyOS

open Word

/-! ## `%d` and `%X` -/

/-- Behind the pieces `ps`, which print `out`, the call prints the directive with the letter `letter` as
`text`, with its padding. -/
def PrintsAs (call : List UInt8 → Except Halt Printf) (ps : List Piece) (out : List UInt8) (zero : Bool)
    (width : Option (Fin 10)) (letter : UInt8) (text : List UInt8) : Prop :=
  ∃ r, call (formatText ps ++ '%'.toUInt8 :: (directiveText zero width letter ++ [0])) = .ok r
    ∧ r.out = out ++ text.leftpad (width.elim 0 Fin.val) (padChar zero)

theorem mem_leftpad {c : UInt8} {n : Nat} {zero : Bool} {text : List UInt8}
    (h : c ∈ text.leftpad n (padChar zero)) : c = padChar zero ∨ c ∈ text := by
  unfold List.leftpad at h
  rcases List.mem_append.mp h with h | h
  · exact Or.inl (List.eq_of_mem_replicate h)
  · exact Or.inr h

theorem value_leftpad (b n : Nat) (zero : Bool) (text : List UInt8) :
    Numeral.value b (text.leftpad n (padChar zero)) = Numeral.value b text := by
  have hpad : Numeral.digitValue (padChar zero) = 0 := by
    cases zero <;> decide
  exact Numeral.value_replicate_append b _ hpad text

/-- The unsigned numeral is the signed one for the words that are not negative. -/
theorem leftpad_signed_iff (n : Nat) (zero : Bool) (v : UInt32) :
    (Numeral.text 10 v.toNat).leftpad n (padChar zero)
        = (Numeral.signed (int32 v.toNat)).leftpad n (padChar zero) ↔ v.toNat < 2147483648 := by
  have hv := v.toNat_lt
  constructor
  · intro heq
    by_contra hge
    -- a numeral without a sign holds no minus
    have hneg : int32 v.toNat < 0 := by
      unfold int32
      rw [u32_of_lt (by omega), if_neg hge]
      omega
    have hmem : '-'.toUInt8 ∈ (Numeral.signed (int32 v.toNat)).leftpad n (padChar zero) := by
      unfold Numeral.signed List.leftpad
      rw [if_pos hneg]
      exact List.mem_append_right _ List.mem_cons_self
    rw [← heq] at hmem
    rcases mem_leftpad hmem with hpad | hdigit
    · cases zero <;> exact absurd hpad (by decide)
    · exact absurd (Numeral.toNat_of_mem (by decide) (by decide) hdigit) (by decide)
  · intro hlt
    rw [int32_of_lt hlt]
    unfold Numeral.signed
    rw [if_neg (by omega)]
    rfl

/-- The decimal numeral is the hexadecimal one for a single decimal digit. -/
theorem leftpad_upper_iff (n : Nat) (zero : Bool) (v : Nat) :
    (Numeral.text 10 v).leftpad n (padChar zero) = (Numeral.upper 16 v).leftpad n (padChar zero)
      ↔ v < 10 := by
  constructor
  · intro heq
    by_contra hge
    -- read in base 16, the decimal numeral stands for more
    have hvalue := congrArg (Numeral.value 16) heq
    rw [value_leftpad, value_leftpad, Numeral.value_upper (by decide) (by decide)] at hvalue
    have hmore := @Numeral.lt_value_text 10 v (by decide) (by decide) 16 (by decide) (by omega)
    omega
  · intro hlt
    have hdigit : Numeral.digit v = v.digitChar.toUpper.toUInt8 := by decide +revert
    rw [Numeral.text_of_lt hlt, Numeral.upper_of_lt (by omega), hdigit]

section

variable {m : Mem} {args : Nat → UInt32} {fuel : Nat}

/-- What a call prints for a directive with the letter `X` or `d`. -/
theorem formatOutput_number {ps : List Piece} {out : List UInt8} (h : Formats m args 0 ps out)
    (hfuel : 4294967296 + ps.length < fuel) (buf : Mem) (zero : Bool) (width : Option (Fin 10))
    {letter : UInt8} (hletter : letter = 'X'.toUInt8 ∨ letter = 'd'.toUInt8) :
    ∃ r, formatOutput m args fuel buf
        (formatText ps ++ '%'.toUInt8 :: (directiveText zero width letter ++ [0])) = .ok r
      ∧ r.out = out
        ++ (Numeral.text 10 (args (directives ps)).toNat).leftpad (width.elim 0 Fin.val) (padChar zero) := by
  have hdigit : ¬ ('0'.toUInt8 ≤ letter ∧ letter ≤ '9'.toUInt8) := by
    rcases hletter with rfl | rfl <;> decide
  have hbase : itoaBase letter = 10 := by
    rcases hletter with rfl | rfl <;> decide
  obtain ⟨n, rfl⟩ := Nat.exists_eq_add_of_lt (show ps.length + 1 < fuel by omega)
  obtain ⟨buf₁, hpieces⟩ := @Formats.printfLoop m args (ps.length + 1 + n + 1) 0 ps out h (by omega)
    (n + 1 + 1) ('%'.toUInt8 :: (directiveText zero width letter ++ [0])) buf []
  obtain ⟨pad0, hscan, hpad⟩ := scanDirective_text zero width hdigit [0]
  obtain ⟨buf₂, hconvert⟩ := @convert_number m args (ps.length + 1 + n + 1) (by omega)
    ⟨[0], 0 + directives ps, buf₁, [] ++ out⟩ pad0 (width.elim 0 Fin.val) letter
    (hletter.imp_right Or.inl)
  simp only [Nat.zero_add, List.nil_append, hbase, hpad] at hpieces hconvert
  refine ⟨⟨[], directives ps + 1, buf₂, _⟩, ?_, rfl⟩
  unfold formatOutput
  rw [show ps.length + 1 + n + 1 = ps.length + (n + 1 + 1) by omega] at hpieces hconvert ⊢
  rw [hpieces, printfLoop_directive _ hscan, hconvert]
  exact @printfLoop_end m args (ps.length + (n + 1 + 1)) n [] _ buf₂ _

/-- A call prints the directive as `text` exactly if that is what `itoa` gives. -/
theorem printsAs_iff {call : List UInt8 → Except Halt Printf} {ps : List Piece} {out printed : List UInt8}
    {zero : Bool} {width : Option (Fin 10)} {letter : UInt8}
    (hcall : ∃ r, call (formatText ps ++ '%'.toUInt8 :: (directiveText zero width letter ++ [0])) = .ok r
      ∧ r.out = out ++ printed.leftpad (width.elim 0 Fin.val) (padChar zero)) (text : List UInt8) :
    PrintsAs call ps out zero width letter text ↔ printed.leftpad (width.elim 0 Fin.val) (padChar zero)
      = text.leftpad (width.elim 0 Fin.val) (padChar zero) := by
  obtain ⟨r, hr, hout⟩ := hcall
  constructor
  · rintro ⟨r', hr', hout'⟩
    obtain rfl := Except.ok.inj (hr.symm.trans hr')
    exact List.append_cancel_left (hout.symm.trans hout')
  · intro heq
    exact ⟨r, hr, by rw [hout, heq]⟩

/-- **`%d` and `%X`.** In `printf` and `debug_printf`, `%d` prints the signed value of its argument exactly
for the words below `2 ^ 31`, and `%X` prints the upper-case hexadecimal numeral exactly below 10. -/
theorem printf_signed_upper_iff {ps : List Piece} {out : List UInt8} (h : Formats m args 0 ps out)
    (hfuel : 4294967296 + ps.length < fuel) (buf : Mem) (zero : Bool) (width : Option (Fin 10)) {v : UInt32}
    (hv : args (directives ps) = v) :
    ((PrintsAs (printf m args fuel buf) ps out zero width 'd'.toUInt8 (Numeral.signed (int32 v.toNat))
        ∧ PrintsAs (debugPrintf m args fuel buf) ps out zero width 'd'.toUInt8
          (Numeral.signed (int32 v.toNat))) ↔ v.toNat < 2147483648)
    ∧ ((PrintsAs (printf m args fuel buf) ps out zero width 'X'.toUInt8 (Numeral.upper 16 v.toNat)
        ∧ PrintsAs (debugPrintf m args fuel buf) ps out zero width 'X'.toUInt8
          (Numeral.upper 16 v.toNat)) ↔ v.toNat < 10) := by
  have hsigned := formatOutput_number h hfuel buf zero width (Or.inr (Eq.refl 'd'.toUInt8))
  have hupper := formatOutput_number h hfuel buf zero width (Or.inl (Eq.refl 'X'.toUInt8))
  rw [hv] at hsigned hupper
  constructor
  · rw [@printsAs_iff (printf m args fuel buf) _ _ _ _ _ _ hsigned,
      @printsAs_iff (debugPrintf m args fuel buf) _ _ _ _ _ _ hsigned, and_self]
    exact leftpad_signed_iff _ zero v
  · rw [@printsAs_iff (printf m args fuel buf) _ _ _ _ _ _ hupper,
      @printsAs_iff (debugPrintf m args fuel buf) _ _ _ _ _ _ hupper, and_self]
    exact leftpad_upper_iff _ zero v.toNat

end

/-- `printf("%d", -1)` and `printf("%X", -1)` print `4294967295`. -/
theorem printf_signed_upper_minus_one :
    ¬ PrintsAs (printf (fun _ => 0) (fun _ => 4294967295) 8589934592 fun _ => 0) [] [] false none
        'd'.toUInt8 (Numeral.signed (-1))
    ∧ ¬ PrintsAs (printf (fun _ => 0) (fun _ => 4294967295) 8589934592 fun _ => 0) [] [] false none
        'X'.toUInt8 (Numeral.upper 16 4294967295) := by
  have hcall := fun letter => @formatOutput_number (fun _ => 0) (fun _ => 4294967295) 8589934592 [] []
    (.nil 0) (by decide) (fun _ => 0) false none letter
  constructor
  · intro hprints
    exact absurd ((printsAs_iff (hcall 'd'.toUInt8 (Or.inr rfl)) _).mp hprints) (by decide)
  · intro hprints
    exact absurd ((printsAs_iff (hcall 'X'.toUInt8 (Or.inl rfl)) _).mp hprints) (by decide)

/-- `printf("%d", 7)` is right, and `printf("%X", 7)` as well. -/
theorem printf_signed_upper_seven :
    PrintsAs (printf (fun _ => 0) (fun _ => 7) 8589934592 fun _ => 0) [] [] false none 'd'.toUInt8 ['7'.toUInt8]
    ∧ PrintsAs (printf (fun _ => 0) (fun _ => 7) 8589934592 fun _ => 0) [] [] false none 'X'.toUInt8
      ['7'.toUInt8] := by
  have hright := @printf_signed_upper_iff (fun _ => 0) (fun _ => 7) 8589934592 [] [] (.nil 0) (by decide)
    (fun _ => 0) false none 7 rfl
  exact ⟨(hright.1.mpr (by decide)).1, (hright.2.mpr (by decide)).1⟩

end DiyOS
