import DiyOS.Stdio.Itoa

/-!
# Formatted output (`lib/stdio/printf.c`, `kernel/debug_printf.c`)

`printf` and `debug_printf` differ in the function that they give their characters to. The format is what
its memory holds from the pointer on; a call leaves the pointer where it stopped reading.

* **`scanDirective_text`** — the flag, the width and the letter of a directive.
* **`Formats`** — what a format with its arguments is to print.
* **`printf_renders`** — what `printf` emits.
-/

namespace DiyOS

open Word

/-! ## `printf`

The format is read character by character. A turn of the loop copies one, or reads a whole directive. -/

/-- The state of a call: what is left of the format, the index of the next argument, the local array
`buf`, and the characters that it has emitted. -/
structure Printf where
  format : List UInt8
  arg : Nat
  buf : Mem
  out : List UInt8

/-- `*format++`. -/
def fetch : List UInt8 → Except Halt (UInt8 × List UInt8)
  | [] => .error .undefined
  | c :: format => .ok (c, format)

/-- The flag of a directive, with the character `c` after its `%`. -/
def scanFlag (c : UInt8) (format : List UInt8) : Except Halt (Bool × UInt8 × List UInt8) :=
  if c = '0'.toUInt8 then (fetch format).map fun (c, format) => (true, c, format)
  else .ok (false, c, format)

/-- The width of a directive, with the character `c` after its flag. -/
def scanWidth (c : UInt8) (format : List UInt8) : Except Halt (Nat × UInt8 × List UInt8) :=
  if '0'.toUInt8 ≤ c ∧ c ≤ '9'.toUInt8 then
    (fetch format).map fun (c', format) => ((c - '0'.toUInt8).toNat, c', format)
  else .ok (0, c, format)

/-- A directive after its `%`: the flag, the width, the letter, and the format behind them. -/
def scanDirective (format : List UInt8) : Except Halt (Bool × Nat × UInt8 × List UInt8) := do
  let (c, format) ← fetch format
  let (pad0, c, format) ← scanFlag c format
  let (pad, c, format) ← scanWidth c format
  pure (pad0, pad, c, format)

/-- The number of characters before the NUL of the string at `p`, counted from the character `i` on. -/
def strEnd : Nat → (Nat → UInt8) → Nat → Except Halt Nat
  | 0, _, _ => .error .loops
  | fuel + 1, p, i => if p i = 0 then .ok i else strEnd fuel p (i + 1)

def padChar (pad0 : Bool) : UInt8 := if pad0 then '0'.toUInt8 else ' '.toUInt8

/-- The part of `printf` at the label `string`: what it emits for the string at `p`. -/
def emitString (fuel : Nat) (p : Nat → UInt8) (pad0 : Bool) (pad : Nat) : Except Halt (List UInt8) :=
  (strEnd fuel p 0).map fun len =>
    List.replicate (pad - len) (padChar pad0) ++ (List.range len).map p

def nullText : List UInt8 := ['(', 'n', 'u', 'l', 'l', ')'].map Char.toUInt8

/-- The characters at the pointer `p`; addresses have 32 bits. -/
def charsAt (m : Mem) (p : UInt32) : Nat → UInt8 := fun i => m (u32 (p.toNat + i))

/-- The `switch` of `printf` on the letter `c`; `m` is the memory that `%s` reads, and `args` are the
words behind the format on the stack. -/
def convertArg (m : Mem) (args : Nat → UInt32) (fuel : Nat) (s : Printf) (pad0 : Bool) (pad : Nat)
    (c : UInt8) : Except Halt Printf :=
  if c = 'X'.toUInt8 ∨ c = 'd'.toUInt8 ∨ c = 'u'.toUInt8 ∨ c = 'x'.toUInt8 then do
    let buf ← itoa fuel s.buf c (args s.arg)
    let text ← emitString fuel buf pad0 pad
    pure { s with arg := s.arg + 1, buf := buf, out := s.out ++ text }
  else if c = 's'.toUInt8 then do
    let p := args s.arg
    let text ← emitString fuel
      (if p = 0 then fun i => nullText.getD i 0 else charsAt m p) pad0 pad
    pure { s with arg := s.arg + 1, out := s.out ++ text }
  else pure { s with arg := s.arg + 1, out := s.out ++ [(args s.arg).toUInt8] }

/-- The loop of `printf`. -/
def printfLoop (m : Mem) (args : Nat → UInt32) (fuel : Nat) : Nat → Printf → Except Halt Printf
  | 0, _ => .error .loops
  | n + 1, s => do
    let (c, format) ← fetch s.format
    if c = 0 then pure { s with format := format }
    else if c ≠ '%'.toUInt8 then
      printfLoop m args fuel n { s with format := format, out := s.out ++ [c] }
    else do
      let (pad0, pad, c, format) ← scanDirective format
      let s ← convertArg m args fuel { s with format := format } pad0 pad c
      printfLoop m args fuel n s

/-- The text of `printf` and of `debug_printf`; `buf` is what the local array holds before. -/
def formatOutput (m : Mem) (args : Nat → UInt32) (fuel : Nat) (buf : Mem) (format : List UInt8) :
    Except Halt Printf := printfLoop m args fuel fuel ⟨format, 0, buf, []⟩

/-- `printf`; the characters go to `putchar`. -/
def printf (m : Mem) (args : Nat → UInt32) (fuel : Nat) (buf : Mem) (format : List UInt8) :
    Except Halt Printf := formatOutput m args fuel buf format

/-- `debug_printf`; the characters go to `debug_putchar`. -/
def debugPrintf (m : Mem) (args : Nat → UInt32) (fuel : Nat) (buf : Mem) (format : List UInt8) :
    Except Halt Printf := formatOutput m args fuel buf format

/-! ## The parts of a turn

After the flag and the width a letter decides: four print a number, one a string, and every other letter a
character. -/

/-- The end of a string is found, with fuel for its length. -/
theorem strEnd_eq {fuel : Nat} {p : Nat → UInt8} {n : Nat} (i : Nat) (hne : ∀ k < n, p (i + k) ≠ 0)
    (hend : p (i + n) = 0) (hfuel : n < fuel) : strEnd fuel p i = .ok (i + n) := by
  induction fuel generalizing i n with
  | zero => omega
  | succ fuel ih =>
    rw [strEnd]
    cases n with
    | zero =>
      rw [Nat.add_zero] at hend
      rw [if_pos hend, Nat.add_zero]
    | succ n =>
      have hfirst := hne 0 (Nat.succ_pos n)
      rw [Nat.add_zero] at hfirst
      rw [if_neg hfirst, @ih n (i + 1) ?_ ?_ (by omega)]
      · exact congrArg Except.ok (by omega)
      · intro k hk
        have hnext := hne (k + 1) (by omega)
        rw [show i + (k + 1) = i + 1 + k by omega] at hnext
        exact hnext
      · rw [show i + 1 + n = i + (n + 1) by omega]
        exact hend

/-- A string is padded on the left, and never truncated. -/
theorem emitString_eq {fuel : Nat} {p : Nat → UInt8} {n : Nat} (hne : ∀ k < n, p k ≠ 0) (hend : p n = 0)
    (hfuel : n < fuel) (pad0 : Bool) (pad : Nat) :
    emitString fuel p pad0 pad = .ok (((List.range n).map p).leftpad pad (padChar pad0)) := by
  have hlen := @strEnd_eq fuel p n 0 (by simpa using hne) (by simpa using hend) hfuel
  unfold emitString List.leftpad
  rw [hlen, Nat.zero_add, List.length_map, List.length_range]
  rfl

/-- A string given as the list of its characters. -/
theorem emitString_text {fuel : Nat} {p : Nat → UInt8} {text : List UInt8} (hzero : 0 ∉ text)
    (htext : (List.range (text.length + 1)).map p = text ++ [0]) (hfuel : text.length < fuel) (pad0 : Bool)
    (pad : Nat) : emitString fuel p pad0 pad = .ok (text.leftpad pad (padChar pad0)) := by
  rw [List.range_succ, List.map_append, List.map_singleton] at htext
  rcases List.append_inj' htext rfl with ⟨hchars, hnul⟩
  rw [emitString_eq ?_ (List.cons.inj hnul).1 hfuel, hchars]
  intro k hk heq
  refine hzero (heq ▸ ?_)
  rw [← hchars]
  exact List.mem_map_of_mem (List.mem_range.mpr hk)

section

variable {m : Mem} {args : Nat → UInt32} {fuel : Nat}

/-- A number is printed in the base of its letter, padded on the left. -/
theorem convert_number (hfuel : 10 < fuel) (s : Printf) (pad0 : Bool) (pad : Nat) {c : UInt8}
    (hc : c = 'X'.toUInt8 ∨ c = 'd'.toUInt8 ∨ c = 'u'.toUInt8 ∨ c = 'x'.toUInt8) :
    ∃ buf, convertArg m args fuel s pad0 pad c = .ok ⟨s.format, s.arg + 1, buf,
      s.out ++ (Numeral.text (itoaBase c) (args s.arg).toNat).leftpad pad (padChar pad0)⟩ := by
  obtain ⟨buf, hitoa, hbytes, hnul, hlength, _⟩ := itoa_text hfuel s.buf c (args s.arg)
  have htext : (List.range ((Numeral.text (itoaBase c) (args s.arg).toNat).length + 1)).map buf
      = Numeral.text (itoaBase c) (args s.arg).toNat ++ [0] := by
    rw [List.range_succ, List.map_append, List.map_singleton, hnul, ← hbytes]
    unfold Mem.bytes
    simp only [Nat.zero_add, List.length_map, List.length_range]
  have hzero : (0 : UInt8) ∉ Numeral.text (itoaBase c) (args s.arg).toNat := by
    intro hmem
    have hbase : 1 < itoaBase c ∧ itoaBase c ≤ 16 := by
      unfold itoaBase
      split <;> decide
    have hdigit := Numeral.toNat_of_mem hbase.1 hbase.2 hmem
    exact absurd hdigit (by decide)
  have hemit := emitString_text hzero htext (by omega : _ < fuel) pad0 pad
  refine ⟨buf, ?_⟩
  unfold convertArg
  rw [if_pos hc, hitoa]
  simp only [bind, Except.bind, pure, Except.pure, hemit]

theorem convert_string {s : Printf} {c : UInt8} (hc : c = 's'.toUInt8) {text : List UInt8}
    (hzero : 0 ∉ text)
    (htext : (List.range (text.length + 1)).map
      (if args s.arg = 0 then fun i => nullText.getD i 0 else charsAt m (args s.arg)) = text ++ [0])
    (hfuel : text.length < fuel) (pad0 : Bool) (pad : Nat) :
    convertArg m args fuel s pad0 pad c = .ok ⟨s.format, s.arg + 1, s.buf,
      s.out ++ text.leftpad pad (padChar pad0)⟩ := by
  have hemit := emitString_text hzero htext hfuel pad0 pad
  unfold convertArg
  rw [hc, if_neg (by decide), if_pos rfl]
  simp only [bind, Except.bind, pure, Except.pure, hemit]

theorem convert_char (s : Printf) (pad0 : Bool) (pad : Nat) {c : UInt8}
    (hnumber : ¬ (c = 'X'.toUInt8 ∨ c = 'd'.toUInt8 ∨ c = 'u'.toUInt8 ∨ c = 'x'.toUInt8))
    (hstring : c ≠ 's'.toUInt8) :
    convertArg m args fuel s pad0 pad c
      = .ok ⟨s.format, s.arg + 1, s.buf, s.out ++ [(args s.arg).toUInt8]⟩ := by
  unfold convertArg
  rw [if_neg hnumber, if_neg hstring]
  rfl

end

/-! ## Formats

The formats that are complete: each directive ends with its letter. The text is what the directives render, one
after the other. -/

inductive Conv where
  | d | u | x | s | c
  deriving DecidableEq

def Conv.letter : Conv → UInt8
  | .d => 'd'.toUInt8
  | .u => 'u'.toUInt8
  | .x => 'x'.toUInt8
  | .s => 's'.toUInt8
  | .c => 'c'.toUInt8

/-- The text of a directive behind its `%`. -/
def directiveText (zero : Bool) (width : Option (Fin 10)) (letter : UInt8) : List UInt8 :=
  (if zero then ['0'.toUInt8] else []) ++ width.toList.map (fun w => Numeral.digit w) ++ [letter]

/-- A piece of a format: a character, or a directive with its flag, its width and its conversion. -/
inductive Piece where
  | literal (c : UInt8) (hc : c ≠ 0 ∧ c ≠ '%'.toUInt8)
  | directive (zero : Bool) (width : Option (Fin 10)) (conv : Conv)

def Piece.text : Piece → List UInt8
  | .literal c _ => [c]
  | .directive zero width conv => '%'.toUInt8 :: directiveText zero width conv.letter

/-- The format made of the pieces. -/
def formatText (ps : List Piece) : List UInt8 := ps.flatMap Piece.text

/-- How many of the pieces are directives. -/
def directives : List Piece → Nat
  | [] => 0
  | .literal _ _ :: ps => directives ps
  | .directive _ _ _ :: ps => directives ps + 1

/-- What the word `v` prints as. -/
inductive Renders (m : Mem) : Conv → UInt32 → List UInt8 → Prop where
  | decimal {v : UInt32} (hv : v.toNat < 2147483648) : Renders m .d v (Numeral.text 10 v.toNat)
  | unsigned (v : UInt32) : Renders m .u v (Numeral.text 10 v.toNat)
  | hexadecimal (v : UInt32) : Renders m .x v (Numeral.text 16 v.toNat)
  | null : Renders m .s 0 nullText
  | string {p : UInt32} {text : List UInt8} (hp : p ≠ 0) (hzero : 0 ∉ text)
      (htext : (List.range (text.length + 1)).map (charsAt m p) = text ++ [0]) : Renders m .s p text
  | char (v : UInt32) : Renders m .c v [v.toUInt8]

/-- A rendering with the width of its directive; a character is not padded. -/
def renderPadded (zero : Bool) (width : Option (Fin 10)) (conv : Conv) (text : List UInt8) : List UInt8 :=
  if conv = .c then text else text.leftpad (width.elim 0 Fin.val) (padChar zero)

/-- The pieces with the arguments from `args i` on are to print `out`. -/
inductive Formats (m : Mem) (args : Nat → UInt32) : Nat → List Piece → List UInt8 → Prop where
  | nil (i : Nat) : Formats m args i [] []
  | literal {i : Nat} {ps : List Piece} {out : List UInt8} (c : UInt8) (hc : c ≠ 0 ∧ c ≠ '%'.toUInt8)
      (hrest : Formats m args i ps out) : Formats m args i (.literal c hc :: ps) (c :: out)
  | directive {i : Nat} {ps : List Piece} {out text : List UInt8} (zero : Bool) (width : Option (Fin 10))
      (conv : Conv) (harg : Renders m conv (args i) text) (hrest : Formats m args (i + 1) ps out) :
      Formats m args i (.directive zero width conv :: ps) (renderPadded zero width conv text ++ out)

theorem scanFlag_zero (c : UInt8) (format : List UInt8) :
    scanFlag '0'.toUInt8 (c :: format) = .ok (true, c, format) := rfl

theorem scanFlag_of_ne {c : UInt8} (hc : c ≠ '0'.toUInt8) (format : List UInt8) :
    scanFlag c format = .ok (false, c, format) := if_neg hc

theorem scanWidth_digit {c : UInt8} (hc : '0'.toUInt8 ≤ c ∧ c ≤ '9'.toUInt8) (c' : UInt8)
    (format : List UInt8) :
    scanWidth c (c' :: format) = .ok ((c - '0'.toUInt8).toNat, c', format) := if_pos hc

theorem scanWidth_of_not_digit {c : UInt8} (hc : ¬ ('0'.toUInt8 ≤ c ∧ c ≤ '9'.toUInt8))
    (format : List UInt8) : scanWidth c format = .ok (0, c, format) := if_neg hc

/-- The parts of a directive one after the other. -/
theorem scanDirective_eq {c c₁ c₂ : UInt8} {format format₁ format₂ : List UInt8} {pad0 : Bool} {pad : Nat}
    (hflag : scanFlag c format = .ok (pad0, c₁, format₁))
    (hwidth : scanWidth c₁ format₁ = .ok (pad, c₂, format₂)) :
    scanDirective (c :: format) = .ok (pad0, pad, c₂, format₂) := by
  unfold scanDirective
  simp only [fetch, bind, Except.bind, pure, Except.pure, hflag, hwidth]

theorem widthDigit (w : Fin 10) :
    ('0'.toUInt8 ≤ Numeral.digit w ∧ Numeral.digit w ≤ '9'.toUInt8)
    ∧ (Numeral.digit w - '0'.toUInt8).toNat = w ∧ (Numeral.digit w = '0'.toUInt8 → w.val = 0) := by
  decide +revert

/-- **A directive is scanned.** A width 0 is read as a flag, which makes no difference without a width. -/
theorem scanDirective_text (zero : Bool) (width : Option (Fin 10)) {letter : UInt8}
    (hletter : ¬ ('0'.toUInt8 ≤ letter ∧ letter ≤ '9'.toUInt8)) (rest : List UInt8) :
    ∃ pad0, scanDirective (directiveText zero width letter ++ rest)
        = .ok (pad0, width.elim 0 Fin.val, letter, rest)
      ∧ ∀ text : List UInt8, text.leftpad (width.elim 0 Fin.val) (padChar pad0)
        = text.leftpad (width.elim 0 Fin.val) (padChar zero) := by
  have hnonzero : letter ≠ '0'.toUInt8 := by
    rintro rfl
    exact hletter (by decide)
  have hplain := scanWidth_of_not_digit hletter rest
  cases width with
  | none =>
    refine ⟨zero, ?_, fun _ => rfl⟩
    cases zero with
    | false => exact scanDirective_eq (scanFlag_of_ne hnonzero rest) hplain
    | true => exact scanDirective_eq (scanFlag_zero letter rest) hplain
  | some w =>
    obtain ⟨hdigit, hvalue, hflag⟩ := widthDigit w
    have hwidth := scanWidth_digit hdigit letter rest
    rw [hvalue] at hwidth
    cases zero with
    | true => exact ⟨true, scanDirective_eq (scanFlag_zero _ (letter :: rest)) hwidth, fun _ => rfl⟩
    | false =>
      by_cases hw : Numeral.digit w = '0'.toUInt8
      · -- the width is taken for the flag
        have hval := hflag hw
        refine ⟨true, ?_, ?_⟩
        · show scanDirective (Numeral.digit w :: letter :: rest) = .ok (true, w.val, letter, rest)
          rw [hw, hval]
          exact scanDirective_eq (scanFlag_zero letter rest) hplain
        · intro text
          show text.leftpad w.val _ = text.leftpad w.val _
          unfold List.leftpad
          rw [hval, Nat.zero_sub]
          rfl
      · exact ⟨false, scanDirective_eq (scanFlag_of_ne hw (letter :: rest)) hwidth, fun _ => rfl⟩

section

variable {m : Mem} {args : Nat → UInt32} {fuel : Nat}

/-- The addresses of a string are different ones, so it is shorter than the address space. -/
theorem length_lt_of_charsAt {p : UInt32} {text : List UInt8} (hzero : 0 ∉ text)
    (htext : (List.range (text.length + 1)).map (charsAt m p) = text ++ [0]) :
    text.length < 4294967296 := by
  by_contra hlong
  rw [List.range_succ, List.map_append, List.map_singleton] at htext
  rcases List.append_inj' htext rfl with ⟨hchars, hnul⟩
  have hwrap : charsAt m p text.length = charsAt m p (text.length - 4294967296) := by
    unfold charsAt u32
    exact congrArg m (by omega)
  refine hzero ?_
  rw [← (List.cons.inj hnul).1, hwrap, ← hchars]
  exact List.mem_map_of_mem (List.mem_range.mpr (by rw [List.length_map, List.length_range]; omega))

/-- **The conversion of a directive** emits its argument. -/
theorem Renders.convertArg {s : Printf} {conv : Conv} {text : List UInt8}
    (h : Renders m conv (args s.arg) text) (hfuel : 4294967296 < fuel) {zero pad0 : Bool}
    {width : Option (Fin 10)} (hpad : ∀ text : List UInt8, text.leftpad (width.elim 0 Fin.val) (padChar pad0)
      = text.leftpad (width.elim 0 Fin.val) (padChar zero)) :
    ∃ buf, DiyOS.convertArg m args fuel s pad0 (width.elim 0 Fin.val) conv.letter
      = .ok ⟨s.format, s.arg + 1, buf, s.out ++ renderPadded zero width conv text⟩ := by
  have hnumber := fun c => @convert_number m args fuel (by omega) s pad0 (width.elim 0 Fin.val) c
  have hstring := @convert_string m args fuel s 's'.toUInt8 rfl
  unfold renderPadded
  rw [← hpad]
  generalize hv : args s.arg = v at *
  cases h with
  | decimal _ => exact hnumber 'd'.toUInt8 (by decide)
  | unsigned => exact hnumber 'u'.toUInt8 (by decide)
  | hexadecimal => exact hnumber 'x'.toUInt8 (by decide)
  | null => exact ⟨s.buf, hstring (by decide) rfl (Nat.lt_trans (by decide) hfuel) pad0 _⟩
  | string hp hzero htext =>
    rw [if_neg hp] at hstring
    exact ⟨s.buf, hstring hzero htext (Nat.lt_trans (length_lt_of_charsAt hzero htext) hfuel) pad0 _⟩
  | char =>
    refine ⟨s.buf, ?_⟩
    rw [convert_char s pad0 _ (by decide) (by decide), hv]
    rfl

/-- A turn of the loop on a character. -/
theorem printfLoop_literal (n : Nat) {c : UInt8} (hc : c ≠ 0 ∧ c ≠ '%'.toUInt8) (format : List UInt8)
    (i : Nat) (buf : Mem) (out : List UInt8) :
    printfLoop m args fuel (n + 1) ⟨c :: format, i, buf, out⟩
      = printfLoop m args fuel n ⟨format, i, buf, out ++ [c]⟩ := by
  rw [printfLoop]
  simp only [fetch, bind, Except.bind, if_neg hc.1, if_pos hc.2]

/-- A turn of the loop on a directive. -/
theorem printfLoop_directive (n : Nat) {format rest : List UInt8} {pad0 : Bool} {pad : Nat} {c : UInt8}
    (hscan : scanDirective format = .ok (pad0, pad, c, rest)) (i : Nat) (buf : Mem) (out : List UInt8) :
    printfLoop m args fuel (n + 1) ⟨'%'.toUInt8 :: format, i, buf, out⟩
      = (convertArg m args fuel ⟨rest, i, buf, out⟩ pad0 pad c >>= printfLoop m args fuel n) := by
  rw [printfLoop]
  simp only [fetch, bind, Except.bind, hscan]
  rfl

/-- The loop ends at the NUL. -/
theorem printfLoop_end (n : Nat) (format : List UInt8) (i : Nat) (buf : Mem) (out : List UInt8) :
    printfLoop m args fuel (n + 1) ⟨0 :: format, i, buf, out⟩ = .ok ⟨format, i, buf, out⟩ := by
  rw [printfLoop]
  rfl

theorem letter_not_digit (conv : Conv) : ¬ ('0'.toUInt8 ≤ conv.letter ∧ conv.letter ≤ '9'.toUInt8) := by
  cases conv <;> decide

/-- **The loop** passes over the pieces and emits what they are to print. -/
theorem Formats.printfLoop {i : Nat} {ps : List Piece} {printed : List UInt8}
    (h : Formats m args i ps printed) (hfuel : 4294967296 < fuel) (n : Nat) (tail : List UInt8) (buf : Mem)
    (out : List UInt8) :
    ∃ buf', DiyOS.printfLoop m args fuel (ps.length + n) ⟨formatText ps ++ tail, i, buf, out⟩
      = DiyOS.printfLoop m args fuel n ⟨tail, i + directives ps, buf', out ++ printed⟩ := by
  induction h generalizing buf out with
  | nil i =>
    refine ⟨buf, ?_⟩
    rw [List.append_nil, List.length_nil, Nat.zero_add]
    rfl
  | @literal i ps printed c hc _ ih =>
    obtain ⟨buf', hloop⟩ := ih buf (out ++ [c])
    refine ⟨buf', ?_⟩
    rw [List.length_cons, Nat.add_right_comm]
    show DiyOS.printfLoop m args fuel _ ⟨c :: (formatText ps ++ tail), i, buf, out⟩ = _
    rw [printfLoop_literal _ hc, hloop, List.append_assoc]
    rfl
  | @directive i ps printed text zero width conv harg _ ih =>
    obtain ⟨pad0, hscan, hpad⟩ := scanDirective_text zero width (letter_not_digit conv)
      (formatText ps ++ tail)
    obtain ⟨buf₁, hconvert⟩ := @Renders.convertArg m args fuel ⟨formatText ps ++ tail, i, buf, out⟩ conv text harg
      hfuel zero pad0 width hpad
    obtain ⟨buf', hloop⟩ := ih buf₁ (out ++ renderPadded zero width conv text)
    refine ⟨buf', ?_⟩
    rw [List.length_cons, Nat.add_right_comm]
    -- a turn of the loop reads one directive, and leaves the rest of the format
    have htext : formatText (.directive zero width conv :: ps) ++ tail
        = '%'.toUInt8 :: (directiveText zero width conv.letter ++ (formatText ps ++ tail)) := by
      unfold formatText
      rw [List.flatMap_cons, List.append_assoc]
      rfl
    rw [htext, printfLoop_directive _ hscan, hconvert]
    show DiyOS.printfLoop m args fuel _ _ = _
    rw [hloop, List.append_assoc, Nat.add_assoc, Nat.add_comm 1]
    rfl

/-- **Formatted output.** A format of characters and complete directives, with the arguments that belong
to them, prints what the renderer gives; one argument is consumed for each directive, and the pointer ends
behind the NUL. -/
theorem printf_renders {ps : List Piece} {out : List UInt8} (h : Formats m args 0 ps out)
    (hfuel : 4294967296 + ps.length < fuel) (buf : Mem) (rest : List UInt8) :
    ∃ buf', printf m args fuel buf (formatText ps ++ 0 :: rest) = .ok ⟨rest, directives ps, buf', out⟩ := by
  obtain ⟨n, rfl⟩ := Nat.exists_eq_add_of_lt (show ps.length < fuel by omega)
  obtain ⟨buf', hloop⟩ := @Formats.printfLoop m args (ps.length + n + 1) 0 ps out h (by omega) (n + 1)
    (0 :: rest) buf []
  refine ⟨buf', ?_⟩
  unfold printf formatOutput
  rw [Nat.add_assoc] at hloop ⊢
  rw [hloop, printfLoop_end, Nat.zero_add, List.nil_append]

end

/-- `printf("n=%03u%s", 7, NULL)`. -/
theorem printf_renders_null :
    ∃ buf', printf (fun _ => 0) (fun i => if i = 0 then 7 else 0) 8589934592 (fun _ => 0xCC)
        (['n', '=', '%', '0', '3', 'u', '%', 's'].map Char.toUInt8 ++ [0])
      = .ok ⟨[], 2, buf', ['n', '=', '0', '0', '7', '(', 'n', 'u', 'l', 'l', ')'].map Char.toUInt8⟩ := by
  have hformats : Formats (fun _ => 0) (fun i => if i = 0 then 7 else 0) 0
      [.literal 'n'.toUInt8 (by decide), .literal '='.toUInt8 (by decide), .directive true (some 3) .u,
        .directive false none .s]
      ('n'.toUInt8 :: '='.toUInt8 :: (renderPadded true (some 3) .u (Numeral.text 10 7)
        ++ (renderPadded false none .s nullText ++ []))) :=
    .literal _ _ (.literal _ _ (.directive _ _ _ (.unsigned 7) (.directive _ _ _ .null (.nil 2))))
  obtain ⟨buf', hcall⟩ := printf_renders hformats (show _ < 8589934592 by decide) (fun _ => 0xCC) []
  have hout : 'n'.toUInt8 :: '='.toUInt8 :: (renderPadded true (some 3) .u (Numeral.text 10 7)
      ++ (renderPadded false none .s nullText ++ []))
      = ['n', '=', '0', '0', '7', '(', 'n', 'u', 'l', 'l', ')'].map Char.toUInt8 := by decide
  rw [hout] at hcall
  exact ⟨buf', hcall⟩

end DiyOS
