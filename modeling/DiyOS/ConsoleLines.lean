import DiyOS.Console

/-!
# Long lines on the text console (`drivers/fb.c`)

`fb_putchar` begins a new line when the cursor is *past* the column behind the last one. So the 81st glyph of
a line is stored with the cursor in that column, which is the first cell of the next row, and the newline
leaves the cursor on this cell.

* **`Tracks`** — where the cursor is after a text, in rows of a screen that never rolls.
* **`print_mem`** — a cell keeps its glyph, and moves up with its row, until another glyph is stored there.
* **`fb_keeps_text_iff`** — for which texts no glyph is lost.
-/

namespace DiyOS

open Word

/-! ## Where glyphs are stored

The screen has 25 rows of 80 cells, and the memory behind it is not the console's. So a place on the screen is
counted from the row that was first when the text began: `storeAt` adds the rows that have been rolled away
since, and two glyphs are in one cell exactly if these numbers agree. -/

/-- How often `fb_newline` calls `fb_roll`. -/
def newlineRolls (s : Fb) : Nat := if u32 (s.y + 1) > s.height then 1 else 0

/-- How often `fb_putchar` does, for a newline or a glyph. -/
def putcharRolls (c : UInt8) (s : Fb) : Nat :=
  if c = newlineChar then newlineRolls s
  else if u32 (s.x + 1) > s.width then newlineRolls s
  else 0

def rolls : List UInt8 → Fb → Nat
  | [], _ => 0
  | c :: rest, s => putcharRolls c s + rolls rest (fbPutchar c s)

/-- A text with the blanks that are printed for a tab. -/
def blanksForTabs (text : List UInt8) : List UInt8 :=
  text.flatMap fun c => if c = tabChar then [32, 32, 32] else [c]

/-- The byte where a glyph after `text` is stored, counted from the first row that was on the screen. -/
def storeAt (text : List UInt8) (s : Fb) : Nat := (fbPrint text s).offset + 160 * rolls text s

/-- The glyphs of a text without tabs have cells of their own. -/
structure OwnCells (text : List UInt8) (s : Fb) : Prop where
  /-- Each glyph is stored in the 25 rows. -/
  inside : ∀ pre c rest, text = pre ++ c :: rest → c ≠ newlineChar → (fbPrint pre s).offset < 4000
  /-- In a line, each glyph is stored behind the one before it. -/
  continues : ∀ pre c d rest, text = pre ++ c :: d :: rest → c ≠ newlineChar → d ≠ newlineChar →
    storeAt (pre ++ [c]) s = storeAt pre s + 2
  /-- No later glyph is stored in the cell of a glyph. -/
  own : ∀ pre c mid d rest, text = pre ++ c :: (mid ++ d :: rest) → c ≠ newlineChar → d ≠ newlineChar →
    storeAt (pre ++ c :: mid) s ≠ storeAt pre s

/-- No printed glyph is lost. -/
structure KeepsText (text : List UInt8) (s : Fb) : Prop where
  cells : OwnCells (blanksForTabs text) s
  /-- Each glyph stays in memory until its row has left the screen. -/
  shown : ∀ pre c mid rest, blanksForTabs text = pre ++ c :: (mid ++ rest) → c ≠ newlineChar →
    160 * rolls (pre ++ c :: mid) s ≤ storeAt pre s →
    (fbPrint (pre ++ c :: mid) s).mem (storeAt pre s - 160 * rolls (pre ++ c :: mid) s) = c
  /-- Nothing is written behind the 25 rows. -/
  behind : ∀ a ≥ 4000, (fbPrint text s).mem a = s.mem a

/-! ## Lines

Only the lengths of the lines decide whether a glyph is lost. A line of 80 glyphs fits; one of 81 fits if it can
have the next row as well; a longer one stores its 82nd glyph on the 81st. -/

/-- The lengths of the lines of a text, with `n` for what is on the first line already. -/
def lineLengths (n : Nat) : List UInt8 → List Nat
  | [] => [n]
  | c :: rest =>
    if c = newlineChar then n :: lineLengths 0 rest
    else lineLengths (n + if c = tabChar then 3 else 1) rest

/-- Lines of at most 80 glyphs, from `row` on. One with 81 takes two rows, so it must not be in the last row. -/
def LinesFit : Nat → List Nat → Prop
  | _, [] => True
  | row, n :: rest => (n ≤ 80 ∧ LinesFit (row + 1) rest) ∨ (n = 81 ∧ row < 24 ∧ LinesFit (row + 2) rest)

/-- A newline ends the line. -/
theorem lineLengths_newline (n : Nat) (rest : List UInt8) :
    lineLengths n (newlineChar :: rest) = n :: lineLengths 0 rest := if_pos rfl

/-- A glyph is one more on the line. -/
theorem lineLengths_glyph {c : UInt8} (hc : c ≠ newlineChar) (htab : c ≠ tabChar) (n : Nat) (rest : List UInt8) :
    lineLengths n (c :: rest) = lineLengths (n + 1) rest := by
  rw [lineLengths, if_neg hc, if_neg htab]

/-- A line of more than 81 glyphs does not fit, whatever comes behind them. -/
theorem not_linesFit_of_long (text : List UInt8) {row n : Nat} (hn : 81 < n) :
    ¬ LinesFit row (lineLengths n text) := by
  induction text generalizing n with
  | nil =>
    intro hfit
    rcases hfit with ⟨hle, _⟩ | ⟨heq, _⟩
    · omega
    · omega
  | cons c rest ih =>
    rw [lineLengths]
    split
    · intro hfit
      rcases hfit with ⟨hle, _⟩ | ⟨heq, _⟩
      · omega
      · omega
    · exact ih (by omega)

theorem linesFit_cons_of_le {row n : Nat} (hn : n ≤ 80) (rest : List Nat) :
    LinesFit row (n :: rest) ↔ LinesFit (row + 1) rest := by
  rw [LinesFit, or_iff_left (by omega), and_iff_right hn]

/-- Behind the 81st glyph, the line has to end. -/
theorem linesFit_wrap (row : Nat) (text : List UInt8) :
    LinesFit row (lineLengths 81 text) ↔
      row < 24 ∧ (∀ d rest, text = d :: rest → d = newlineChar) ∧ LinesFit (row + 1) (lineLengths 0 text) := by
  cases text with
  | nil =>
    constructor
    · rintro (⟨hle, _⟩ | ⟨_, hrow, _⟩)
      · omega
      · refine ⟨hrow, fun d rest heq => (nomatch heq), Or.inl ⟨Nat.zero_le 80, trivial⟩⟩
    · rintro ⟨hrow, _⟩
      exact Or.inr ⟨rfl, hrow, trivial⟩
  | cons d rest =>
    by_cases hd : d = newlineChar
    · subst hd
      rw [lineLengths_newline, lineLengths_newline, linesFit_cons_of_le (Nat.zero_le 80), LinesFit,
        or_iff_right (by omega), and_iff_right rfl]
      refine and_congr_right fun _ => (and_iff_right ?_).symm
      intro d rest' heq
      exact (List.cons.inj heq).1.symm
    · refine iff_of_false ?_ fun h => hd (h.2.1 d rest rfl)
      rw [lineLengths, if_neg hd]
      split
      · exact not_linesFit_of_long rest (by omega)
      · exact not_linesFit_of_long rest (by omega)

/-- A tab is as long as its three blanks. -/
theorem lineLengths_blanks (text : List UInt8) (n : Nat) :
    lineLengths n (blanksForTabs text) = lineLengths n text := by
  induction text generalizing n with
  | nil => rfl
  | cons c rest ih =>
    unfold blanksForTabs at ih ⊢
    rw [List.flatMap_cons]
    by_cases htab : c = tabChar
    · subst htab
      have hnl : tabChar ≠ newlineChar := by decide
      rw [if_pos rfl, lineLengths, if_neg hnl, if_pos rfl, ← ih (n + 3)]
      rfl
    · rw [if_neg htab]
      by_cases hc : c = newlineChar
      · subst hc
        rw [lineLengths_newline, ← ih 0]
        exact lineLengths_newline n _
      · rw [lineLengths_glyph hc htab, ← ih (n + 1)]
        exact lineLengths_glyph hc htab n _

/-! ## One character

`fb_putchar` for a console that shows a terminal. `Shows` says what both have in common; here it is the memory
that counts, also where the terminal has no cell. -/

section

variable {s : Fb} {t : Terminal (UInt8 × UInt8)} {rolled row col : Nat} {c : UInt8}

/-- The terminal that a console shows. -/
def terminalOf (s : Fb) : Terminal (UInt8 × UInt8) := ⟨fbCell s, s.y, s.x⟩

/-- The console with other bytes on the screen. -/
theorem Shows.withMem (h : Shows s t) (m : Mem) : Shows { s with mem := m } (terminalOf { s with mem := m }) where
  lineSize := h.lineSize
  width := h.width
  height := h.height
  cellSize := h.cellSize
  row := rfl
  row_le := le_of_eq_of_le h.row h.row_le
  col := rfl
  col_le := le_of_eq_of_le h.col h.col_le
  offset := h.offset
  cell _ _ _ _ := rfl

theorem Shows.self (h : Shows s t) : Shows s (terminalOf s) := h.withMem s.mem

/-- The memory with the glyph `c` in the cell of the cursor. -/
def storeGlyph (c : UInt8) (s : Fb) : Mem := (s.mem.writeByte s.offset c).writeByte (s.offset + 1) s.color

/-- The memory before `fb_putchar` moves the cursor. -/
def stored (c : UInt8) (s : Fb) : Mem := if c = newlineChar then s.mem else storeGlyph c s

/-- The glyph is at the cursor. -/
theorem storeGlyph_offset (c : UInt8) (s : Fb) : storeGlyph c s s.offset = c := by
  unfold storeGlyph
  rw [Mem.writeByte_of_ne _ _ (by omega), Mem.writeByte_self]

theorem storeGlyph_of_ne {a : Nat} (h : a ≠ s.offset) (h' : a ≠ s.offset + 1) : storeGlyph c s a = s.mem a := by
  unfold storeGlyph
  rw [Mem.writeByte_of_ne _ _ h', Mem.writeByte_of_ne _ _ h]

theorem newlineRolls_of_lt (h : Shows s t) (hrow : s.y < 24) : newlineRolls s = 0 := by
  unfold newlineRolls
  rw [u32_of_lt (by omega), h.height, if_neg (by omega)]

/-- In the last row it rolls once. -/
theorem newlineRolls_of_last (h : Shows s t) (hrow : s.y = 24) : newlineRolls s = 1 := by
  unfold newlineRolls
  rw [u32_of_lt (by omega), h.height, if_pos (by omega)]

/-- The rows move up, if the screen rolls. -/
theorem fbNewline_mem (h : Shows s t) {a : Nat} (ha : a + 160 * newlineRolls s < 4000) :
    (fbNewline s).mem a = s.mem (a + 160 * newlineRolls s) := by
  have hrow := h.row
  have hle := h.row_le
  by_cases hlast : t.row + 1 < 25
  · rw [newlineRolls_of_lt h (by omega), fbNewline_of_lt h hlast]
    rfl
  · have hrolls := newlineRolls_of_last h (by omega)
    rw [hrolls] at ha ⊢
    rw [fbNewline_of_last h hlast]
    exact fbRoll_of_lt h (by omega)

/-- A glyph behind the last column begins a new line. -/
theorem fbGlyph_of_last (h : Shows s t) (hcol : t.col = 80) (c : UInt8) :
    fbGlyph c s = fbNewline { s with mem := storeGlyph c s } := by
  have hx := h.col
  have hsucc : u32 (s.x + 1) = s.x + 1 := u32_of_lt (by omega)
  unfold fbGlyph
  simp only [hsucc]
  rw [if_pos (by rw [h.width]; omega)]
  rfl

theorem fbPutchar_newline (s : Fb) : fbPutchar newlineChar s = fbNewline s := if_pos rfl

theorem fbPutchar_glyph (hc : c ≠ newlineChar) (htab : c ≠ tabChar) (s : Fb) :
    fbPutchar c s = fbGlyph c s := by
  unfold fbPutchar
  rw [if_neg hc, if_neg htab]

theorem fbPutchar_tab (s : Fb) : fbPutchar tabChar s = fbGlyph 32 (fbGlyph 32 (fbGlyph 32 s)) := by
  unfold fbPutchar
  rw [if_neg (by decide), if_pos rfl]

theorem putcharRolls_of_lt (h : Shows s t) (hc : c ≠ newlineChar) (hcol : t.col < 80) :
    putcharRolls c s = 0 := by
  have hx := h.col
  unfold putcharRolls
  rw [if_neg hc, u32_of_lt (by omega), h.width, if_neg (by omega)]

/-- Behind the last column, a glyph rolls as a newline does. -/
theorem putcharRolls_of_last (h : Shows s t) (hcol : t.col = 80) : putcharRolls c s = newlineRolls s := by
  have hx := h.col
  unfold putcharRolls
  rw [u32_of_lt (by omega), h.width, if_pos (show s.x + 1 > 80 by omega), ite_self]

/-- A character is stored, and then moves up with its row if the screen rolls. -/
theorem fbPutchar_mem (h : Shows s t) (htab : c ≠ tabChar) {a : Nat} (ha : a + 160 * putcharRolls c s < 4000) :
    (fbPutchar c s).mem a = stored c s (a + 160 * putcharRolls c s) := by
  by_cases hc : c = newlineChar
  · subst hc
    have hrolls : putcharRolls newlineChar s = newlineRolls s := if_pos rfl
    rw [hrolls] at ha ⊢
    rw [fbPutchar_newline]
    exact fbNewline_mem h ha
  · have hstored : stored c s = storeGlyph c s := if_neg hc
    rw [fbPutchar_glyph hc htab, hstored]
    by_cases hcol : t.col < 80
    · rw [putcharRolls_of_lt h hc hcol, fbGlyph_of_lt h hcol]
      rfl
    · have hlast : t.col = 80 := Nat.le_antisymm h.col_le (Nat.not_lt.mp hcol)
      have hrolls := @putcharRolls_of_last s t c h hlast
      rw [hrolls] at ha ⊢
      have hmem := fbNewline_mem (h.withMem (storeGlyph c s)) ha
      rw [fbGlyph_of_last h hlast]
      exact hmem

/-- A character that is stored in the 25 rows changes nothing behind them. -/
theorem fbPutchar_behind (h : Shows s t) (htab : c ≠ tabChar) (hinside : c ≠ newlineChar → s.offset < 4000)
    {a : Nat} (ha : 4000 ≤ a) : (fbPutchar c s).mem a = s.mem a := by
  by_cases hc : c = newlineChar
  · subst hc
    rw [fbPutchar_newline]
    exact h.newline.2.2 a ha
  · have hoffset := h.offset
    have hin := hinside hc
    have hsame : storeGlyph c s a = s.mem a := storeGlyph_of_ne (by omega) (by omega)
    rw [fbPutchar_glyph hc htab, ← hsame]
    by_cases hcol : t.col < 80
    · rw [fbGlyph_of_lt h hcol]
      rfl
    · rw [fbGlyph_of_last h (Nat.le_antisymm h.col_le (Nat.not_lt.mp hcol))]
      exact (h.withMem (storeGlyph c s)).newline.2.2 a ha

/-- The cursor after a character, in rows of a screen that never rolls. -/
def advance (p : Nat × Nat) (c : UInt8) : Nat × Nat :=
  if c = newlineChar then (p.1 + 1, 0)
  else if p.2 < 80 then (p.1, p.2 + 1)
  else (p.1 + 1, 0)

theorem advance_of_lt {p : Nat × Nat} (hc : c ≠ newlineChar) (hcol : p.2 < 80) : advance p c = (p.1, p.2 + 1) := by
  unfold advance
  rw [if_neg hc, if_pos hcol]

/-- Behind them, it moves to the next row. -/
theorem advance_of_last {p : Nat × Nat} (hc : c ≠ newlineChar) (hcol : ¬ p.2 < 80) :
    advance p c = (p.1 + 1, 0) := by
  unfold advance
  rw [if_neg hc, if_neg hcol]

/-- The console with the cursor at `p`, where the last row is the 24th if the screen has not been rolled. -/
structure Tracks (s : Fb) (rolled : Nat) (p : Nat × Nat) : Prop where
  shows : Shows s (terminalOf s)
  row : s.y = min p.1 24
  rolled : rolled = p.1 - 24
  col : s.x = p.2

theorem Tracks.col_le {p : Nat × Nat} (h : Tracks s rolled p) : p.2 ≤ 80 := by
  have hle := h.shows.col_le
  rw [show (terminalOf s).col = p.2 from h.col] at hle
  exact hle

/-- A newline moves the cursor down, by a row of its own or by a roll. -/
theorem Tracks.newline {p : Nat × Nat} (h : Tracks s rolled p) :
    Tracks (fbNewline s) (rolled + newlineRolls s) (p.1 + 1, 0) := by
  have hrow := h.row
  have hrolled := h.rolled
  by_cases hlast : s.y < 24
  · rw [newlineRolls_of_lt h.shows hlast]
    refine ⟨h.shows.newline.1.self, ?_, ?_, ?_⟩
    · rw [fbNewline_of_lt h.shows (Nat.succ_lt_succ hlast)]
      show s.y + 1 = min (p.1 + 1) 24
      omega
    · show rolled + 0 = p.1 + 1 - 24
      omega
    · rw [fbNewline_of_lt h.shows (Nat.succ_lt_succ hlast)]
      rfl
  · have hbelow : ¬ (terminalOf s).row + 1 < 25 := fun hlt => hlast (Nat.lt_of_succ_lt_succ hlt)
    rw [newlineRolls_of_last h.shows (by omega)]
    refine ⟨h.shows.newline.1.self, ?_, ?_, ?_⟩
    · rw [fbNewline_of_last h.shows hbelow]
      show s.y = min (p.1 + 1) 24
      omega
    · show rolled + 1 = p.1 + 1 - 24
      omega
    · rw [fbNewline_of_last h.shows hbelow]
      rfl

theorem Tracks.withMem {p : Nat × Nat} (h : Tracks s rolled p) (m : Mem) : Tracks { s with mem := m } rolled p :=
  ⟨h.shows.withMem m, h.row, h.rolled, h.col⟩

/-- **The step.** -/
theorem Tracks.putchar {p : Nat × Nat} (h : Tracks s rolled p) (htab : c ≠ tabChar) :
    Tracks (fbPutchar c s) (rolled + putcharRolls c s) (advance p c) := by
  have hcol : (terminalOf s).col = p.2 := h.col
  by_cases hc : c = newlineChar
  · subst hc
    have hrolls : putcharRolls newlineChar s = newlineRolls s := if_pos rfl
    have hadvance : advance p newlineChar = (p.1 + 1, 0) := if_pos rfl
    rw [fbPutchar_newline, hrolls, hadvance]
    exact h.newline
  · rw [fbPutchar_glyph hc htab]
    by_cases hroom : p.2 < 80
    · have hlt : (terminalOf s).col < 80 := lt_of_eq_of_lt hcol hroom
      rw [advance_of_lt hc hroom, putcharRolls_of_lt h.shows hc hlt]
      refine ⟨(h.shows.glyph hlt c).1.self, ?_, h.rolled, ?_⟩
      · rw [fbGlyph_of_lt h.shows hlt]
        exact h.row
      · rw [fbGlyph_of_lt h.shows hlt]
        exact congrArg (· + 1) hcol
    · have hlast : (terminalOf s).col = 80 := by
        rw [hcol]
        exact Nat.le_antisymm h.col_le (Nat.not_lt.mp hroom)
      rw [advance_of_last hc hroom, putcharRolls_of_last h.shows hlast, fbGlyph_of_last h.shows hlast]
      exact (h.withMem (storeGlyph c s)).newline

end

/-! ## A text

The step lemmas `Tracks.putchar` and `fbPutchar_mem`, along a text. Tabs are replaced by their blanks first
(`fbPrint_blanks`), so that each character left stores one glyph or none. -/

theorem fbPrint_nil (s : Fb) : fbPrint [] s = s := rfl

theorem fbPrint_cons (c : UInt8) (rest : List UInt8) (s : Fb) :
    fbPrint (c :: rest) s = fbPrint rest (fbPutchar c s) := rfl

theorem fbPrint_append (pre rest : List UInt8) (s : Fb) :
    fbPrint (pre ++ rest) s = fbPrint rest (fbPrint pre s) := List.foldl_append

/-- Printing a tab is printing three blanks. -/
theorem fbPrint_blanks (text : List UInt8) (s : Fb) : fbPrint (blanksForTabs text) s = fbPrint text s := by
  induction text generalizing s with
  | nil => rfl
  | cons c rest ih =>
    unfold blanksForTabs at ih ⊢
    rw [List.flatMap_cons, fbPrint_append, ih, fbPrint_cons]
    by_cases htab : c = tabChar
    · subst htab
      have hblank : ∀ s, fbPutchar 32 s = fbGlyph 32 s := fbPutchar_glyph (by decide) (by decide)
      rw [if_pos rfl, fbPutchar_tab, fbPrint_cons, fbPrint_cons, fbPrint_cons, fbPrint_nil, hblank, hblank, hblank]
    · rw [if_neg htab]
      rfl

theorem notMem_tab_cons {c : UInt8} {rest : List UInt8} (htab : tabChar ∉ c :: rest) :
    c ≠ tabChar ∧ tabChar ∉ rest :=
  ⟨fun heq => htab (heq ▸ List.mem_cons_self), fun hmem => htab (List.mem_cons_of_mem c hmem)⟩

/-- The replaced text has no tabs. -/
theorem tab_notMem_blanks (text : List UInt8) : tabChar ∉ blanksForTabs text := by
  intro hmem
  obtain ⟨c, _, hc⟩ := List.mem_flatMap.mp hmem
  split at hc
  · exact absurd hc (by decide)
  · exact absurd (List.mem_singleton.mp hc).symm ‹_›

theorem rolls_append (pre rest : List UInt8) (s : Fb) :
    rolls (pre ++ rest) s = rolls pre s + rolls rest (fbPrint pre s) := by
  induction pre generalizing s with
  | nil => exact (Nat.zero_add _).symm
  | cons c pre ih =>
    rw [List.cons_append, rolls, rolls, ih, fbPrint_cons]
    omega

theorem storeAt_nil (s : Fb) : storeAt [] s = s.offset := rfl

/-- A place after two texts is one after the second, counted from an earlier row. -/
theorem storeAt_append (pre text : List UInt8) (s : Fb) :
    storeAt (pre ++ text) s = storeAt text (fbPrint pre s) + 160 * rolls pre s := by
  unfold storeAt
  rw [fbPrint_append, rolls_append]
  omega

theorem storeAt_cons (c : UInt8) (text : List UInt8) (s : Fb) :
    storeAt (c :: text) s = storeAt text (fbPutchar c s) + 160 * putcharRolls c s := storeAt_append [c] text s

section

variable {s : Fb} {t : Terminal (UInt8 × UInt8)} {rolled : Nat} {p : Nat × Nat} {text : List UInt8}

/-- **The run.** -/
theorem Tracks.print (h : Tracks s rolled p) (htab : tabChar ∉ text) :
    Tracks (fbPrint text s) (rolled + rolls text s) (text.foldl advance p) := by
  induction text generalizing s rolled p with
  | nil => exact h
  | cons c rest ih =>
    obtain ⟨hc, hrest⟩ := notMem_tab_cons htab
    have hrun := ih (h.putchar hc) hrest
    rw [Nat.add_assoc] at hrun
    exact hrun

/-- The byte of a cell, in rows of a screen that never rolls. -/
def place (p : Nat × Nat) : Nat := 160 * p.1 + 2 * p.2

/-- A glyph behind a text is stored where the cursor of the screen that never rolls is. -/
theorem Tracks.storeAt_eq (h : Tracks s rolled p) (htab : tabChar ∉ text) :
    storeAt text s + 160 * rolled = place (text.foldl advance p) := by
  have hrun := h.print htab
  have hoffset := hrun.shows.offset
  have hrow := hrun.row
  have hrolled := hrun.rolled
  have hcol := hrun.col
  unfold storeAt place
  omega

/-- The same for a text that begins with `c`. -/
theorem Tracks.storeAt_cons {c : UInt8} {q : Nat × Nat} (h : Tracks s rolled p) (htab : tabChar ∉ c :: text)
    (hadvance : advance p c = q) {mid rest : List UInt8} (hsplit : text = mid ++ rest) :
    storeAt (c :: mid) s + 160 * rolled = place (mid.foldl advance q) := by
  have hat := @Tracks.storeAt_eq s rolled p (c :: mid) h (by
    intro hmem
    rw [hsplit] at htab
    exact htab (List.mem_append_left rest hmem))
  rw [List.foldl_cons, hadvance] at hat
  exact hat

/-- Every cursor is at most one column behind the last. -/
theorem advance_col_le (p : Nat × Nat) (c : UInt8) : (advance p c).2 ≤ 80 := by
  unfold advance
  split
  · exact Nat.zero_le 80
  · split
    · assumption
    · exact Nat.zero_le 80

/-- A character does not move the cursor back. -/
theorem place_le_advance (hcol : p.2 ≤ 80) (c : UInt8) : place p ≤ place (advance p c) := by
  unfold advance place
  split
  · show 160 * p.1 + 2 * p.2 ≤ 160 * (p.1 + 1) + 2 * 0
    omega
  · split
    · show 160 * p.1 + 2 * p.2 ≤ 160 * p.1 + 2 * (p.2 + 1)
      omega
    · show 160 * p.1 + 2 * p.2 ≤ 160 * (p.1 + 1) + 2 * 0
      omega

/-- The cursor never moves back. -/
theorem place_le (text : List UInt8) (hcol : p.2 ≤ 80) : place p ≤ place (text.foldl advance p) := by
  induction text generalizing p with
  | nil => exact le_rfl
  | cons c rest ih => exact (place_le_advance hcol c).trans (ih (advance_col_le p c))

/-- A cell keeps what it shows, and moves up with its row, until another glyph is stored there. -/
theorem print_mem (h : Tracks s rolled p) (htab : tabChar ∉ text) {a : Nat} (heven : a % 2 = 0) (ha : a < 4000)
    (hrolls : 160 * rolls text s ≤ a)
    (hother : ∀ pre c rest, text = pre ++ c :: rest → c ≠ newlineChar → storeAt pre s ≠ a) :
    (fbPrint text s).mem (a - 160 * rolls text s) = s.mem a := by
  induction text generalizing s rolled p a with
  | nil => rfl
  | cons c rest ih =>
    obtain ⟨hc, hrest⟩ := notMem_tab_cons htab
    rw [rolls] at hrolls ⊢
    have hoffset := h.shows.offset
    have hstored : stored c s a = s.mem a := by
      unfold stored
      split
      · rfl
      · have hne := hother [] c rest rfl ‹_›
        rw [storeAt_nil] at hne
        exact storeGlyph_of_ne (fun heq => hne heq.symm) (by omega)
    have hstep := @fbPutchar_mem s _ c h.shows hc (a - 160 * putcharRolls c s) (by omega)
    rw [Nat.sub_add_cancel (by omega), hstored] at hstep
    have hrun := ih (h.putchar hc) hrest
      (show (a - 160 * putcharRolls c s) % 2 = 0 by omega) (by omega) (by omega) (by
        intro pre d rest' hsplit hd heq
        refine hother (c :: pre) d rest' (by rw [hsplit, List.cons_append]) hd ?_
        rw [storeAt_cons]
        omega)
    rw [← hstep, ← hrun, fbPrint_cons]
    congr 1
    omega

/-- A text whose glyphs are stored in the 25 rows changes nothing behind them. -/
theorem print_behind (h : Tracks s rolled p) (htab : tabChar ∉ text)
    (hinside : ∀ pre c rest, text = pre ++ c :: rest → c ≠ newlineChar → (fbPrint pre s).offset < 4000)
    {a : Nat} (ha : 4000 ≤ a) : (fbPrint text s).mem a = s.mem a := by
  induction text generalizing s rolled p with
  | nil => rfl
  | cons c rest ih =>
    obtain ⟨hc, hrest⟩ := notMem_tab_cons htab
    rw [fbPrint_cons, ih (h.putchar hc) hrest (by
      intro pre d rest' hsplit hd
      exact hinside (c :: pre) d rest' (by rw [hsplit, List.cons_append]) hd)]
    exact fbPutchar_behind h.shows hc (hinside [] c rest rfl) ha

/-- A glyph stays in memory, until another one is stored in its cell. -/
theorem print_glyph {c : UInt8} (h : Tracks s rolled p) (hc : c ≠ newlineChar) (hctab : c ≠ tabChar)
    (htab : tabChar ∉ text) (hinside : s.offset < 4000) (hrolls : 160 * rolls (c :: text) s ≤ s.offset)
    (hother : ∀ pre d rest, text = pre ++ d :: rest → d ≠ newlineChar → storeAt (c :: pre) s ≠ s.offset) :
    (fbPrint (c :: text) s).mem (s.offset - 160 * rolls (c :: text) s) = c := by
  have hoffset := h.shows.offset
  rw [rolls] at hrolls ⊢
  have hstep := @fbPutchar_mem s _ c h.shows hctab (s.offset - 160 * putcharRolls c s) (by omega)
  have hstored : stored c s = storeGlyph c s := if_neg hc
  rw [Nat.sub_add_cancel (by omega), hstored, storeGlyph_offset] at hstep
  have hrun := print_mem (h.putchar hctab) htab (show (s.offset - 160 * putcharRolls c s) % 2 = 0 by omega)
    (by omega) (by omega) (by
      intro pre d rest hsplit hd heq
      refine hother pre d rest hsplit hd ?_
      rw [storeAt_cons]
      omega)
  rw [hstep] at hrun
  rw [fbPrint_cons]
  refine Eq.trans ?_ hrun
  congr 1
  omega

/-- A glyph with a cell of its own is seen until its row has left the screen. -/
theorem OwnCells.shown (hown : OwnCells text s) (h : Tracks s rolled p) (htab : tabChar ∉ text)
    {pre mid rest : List UInt8} {c : UInt8} (hsplit : text = pre ++ c :: (mid ++ rest)) (hc : c ≠ newlineChar)
    (hrolls : 160 * rolls (pre ++ c :: mid) s ≤ storeAt pre s) :
    (fbPrint (pre ++ c :: mid) s).mem (storeAt pre s - 160 * rolls (pre ++ c :: mid) s) = c := by
  have hnot : tabChar ∉ pre ++ c :: (mid ++ rest) := hsplit ▸ htab
  rw [List.mem_append, List.mem_cons, List.mem_append, not_or, not_or, not_or] at hnot
  obtain ⟨hpre, hctab, hmid, _⟩ := hnot
  rw [rolls_append] at hrolls ⊢
  rw [fbPrint_append]
  unfold storeAt at hrolls ⊢
  have hkept := print_glyph (h.print hpre) hc (fun heq => hctab heq.symm) hmid (hown.inside pre c _ hsplit hc)
    (by omega) (by
      intro mid' d rest' hsplit' hd heq
      refine hown.own pre c mid' d (rest' ++ rest) ?_ hc hd ?_
      · rw [hsplit, hsplit', List.append_assoc, List.cons_append]
      · rw [storeAt_append, heq]
        rfl)
  refine Eq.trans ?_ hkept
  congr 1
  omega

/-! ## Which texts keep their glyphs

By induction on the text: `ownCells_cons_iff` splits off the first character, whose cell is its own depending on
the column it is printed in. In one of the 80 columns it always is (`Tracks.ownCell`); behind them it is the
condition that `linesFit_wrap` reads off the lengths. -/

/-- What `OwnCells` says about the first character. -/
def OwnCell (c : UInt8) (rest : List UInt8) (s : Fb) : Prop :=
  s.offset < 4000
    ∧ (∀ d rest', rest = d :: rest' → d ≠ newlineChar → storeAt [c] s = storeAt [] s + 2)
    ∧ ∀ mid d rest', rest = mid ++ d :: rest' → d ≠ newlineChar → storeAt (c :: mid) s ≠ storeAt [] s

/-- The glyphs of a text have their own cells if the first has, and the others in the console it leaves. -/
theorem ownCells_cons_iff {c : UInt8} {rest : List UInt8} :
    OwnCells (c :: rest) s ↔ (c ≠ newlineChar → OwnCell c rest s) ∧ OwnCells rest (fbPutchar c s) := by
  constructor
  · intro h
    refine ⟨fun hc => ⟨h.inside [] c rest rfl hc, fun d rest' hrest hd => ?_, fun mid d rest' hrest hd => ?_⟩,
      ⟨fun pre d rest' hrest hd => ?_, fun pre d e rest' hrest hd he => ?_,
        fun pre d mid e rest' hrest hd he => ?_⟩⟩
    · exact h.continues [] c d rest' (by rw [hrest]; rfl) hc hd
    · exact h.own [] c mid d rest' (by rw [hrest]; rfl) hc hd
    · exact h.inside (c :: pre) d rest' (by rw [hrest]; rfl) hd
    · have hnext := h.continues (c :: pre) d e rest' (by rw [hrest]; rfl) hd he
      rw [List.cons_append, storeAt_cons, storeAt_cons] at hnext
      omega
    · have hne := h.own (c :: pre) d mid e rest' (by rw [hrest]; rfl) hd he
      rw [List.cons_append, storeAt_cons, storeAt_cons] at hne
      omega
  · rintro ⟨hfirst, h⟩
    refine ⟨fun pre d rest' hsplit hd => ?_, fun pre d e rest' hsplit hd he => ?_,
      fun pre d mid e rest' hsplit hd he => ?_⟩
    · cases pre with
      | nil =>
        obtain ⟨rfl, _⟩ := List.cons.inj hsplit
        exact (hfirst hd).1
      | cons c' pre =>
        obtain ⟨rfl, hrest⟩ := List.cons.inj hsplit
        exact h.inside pre d rest' hrest hd
    · cases pre with
      | nil =>
        obtain ⟨rfl, hrest⟩ := List.cons.inj hsplit
        exact (hfirst hd).2.1 e rest' hrest he
      | cons c' pre =>
        obtain ⟨rfl, hrest⟩ := List.cons.inj hsplit
        have hnext := h.continues pre d e rest' hrest hd he
        rw [List.cons_append, storeAt_cons, storeAt_cons]
        omega
    · cases pre with
      | nil =>
        obtain ⟨rfl, hrest⟩ := List.cons.inj hsplit
        exact (hfirst hd).2.2 mid e rest' hrest he
      | cons c' pre =>
        obtain ⟨rfl, hrest⟩ := List.cons.inj hsplit
        have hne := h.own pre d mid e rest' hrest hd he
        rw [List.cons_append, storeAt_cons, storeAt_cons]
        omega

theorem ownCells_nil (s : Fb) : OwnCells [] s where
  inside pre c rest h := by cases pre <;> cases h
  continues pre c d rest h := by cases pre <;> cases h
  own pre c mid d rest h := by cases pre <;> cases h

/-- A glyph in one of the 80 columns has a cell of its own. -/
theorem Tracks.ownCell {c : UInt8} (h : Tracks s rolled p) (htab : tabChar ∉ c :: text)
    (hc : c ≠ newlineChar) (hcol : p.2 < 80) : OwnCell c text s := by
  have hadvance := advance_of_lt hc hcol
  have hplace : place (p.1, p.2 + 1) = place p + 2 := by
    unfold place
    omega
  have hhere := h.storeAt_eq (List.not_mem_nil (a := tabChar))
  refine ⟨?_, fun d rest' hrest _ => ?_, fun mid d rest' hsplit _ heq => ?_⟩
  · have hoffset := h.shows.offset
    have hrow := h.row
    have hx := h.col
    omega
  · have hnext := h.storeAt_cons htab hadvance (List.nil_append text).symm
    rw [List.foldl_nil] at hhere hnext
    omega
  · have hlater := h.storeAt_cons htab hadvance hsplit
    have hle := place_le mid (show (p.1, p.2 + 1).2 ≤ 80 from hcol)
    rw [List.foldl_nil] at hhere
    omega

/-- A glyph behind the last column has one exactly if there is a next row, and the line ends. -/
theorem Tracks.ownCell_last_iff {c : UInt8} (h : Tracks s rolled p) (htab : tabChar ∉ c :: text)
    (hc : c ≠ newlineChar) (hcol : p.2 = 80) :
    OwnCell c text s ↔ p.1 < 24 ∧ ∀ d rest, text = d :: rest → d = newlineChar := by
  have hadvance : advance p c = (p.1 + 1, 0) := advance_of_last hc (by omega)
  have hplace : place (p.1 + 1, 0) = place p := by
    unfold place
    omega
  have hhere := h.storeAt_eq (List.not_mem_nil (a := tabChar))
  have hoffset := h.shows.offset
  have hrow := h.row
  have hx := h.col
  rw [List.foldl_nil] at hhere
  constructor
  · rintro ⟨hinside, _, hown⟩
    refine ⟨by omega, fun d rest hrest => ?_⟩
    by_contra hd
    have hne := hown [] d rest hrest hd
    have hnext := h.storeAt_cons htab hadvance (List.nil_append text).symm
    rw [List.foldl_nil] at hnext
    omega
  · rintro ⟨hlt, hends⟩
    refine ⟨by omega, fun d rest hrest hd => absurd (hends d rest hrest) hd, fun mid d rest hsplit hd heq => ?_⟩
    cases mid with
    | nil => exact hd (hends d rest hsplit)
    | cons e mid =>
      -- the newline has moved the cursor to the next row
      have hnl : e = newlineChar := hends e _ hsplit
      subst hnl
      have hlater := h.storeAt_cons htab hadvance hsplit
      have hle := place_le mid (show (p.1 + 2, 0).2 ≤ 80 from Nat.zero_le 80)
      have hrow2 : place (p.1 + 2, 0) = place p + 160 := by
        unfold place
        omega
      have hdown : (newlineChar :: mid).foldl advance (p.1 + 1, 0) = mid.foldl advance (p.1 + 2, 0) := rfl
      rw [hdown] at hlater
      omega

/-- Glyphs have cells of their own exactly if the lines fit. -/
theorem ownCells_iff (h : Tracks s rolled p) (htab : tabChar ∉ text) :
    OwnCells text s ↔ LinesFit p.1 (lineLengths p.2 text) := by
  induction text generalizing s rolled p with
  | nil => exact iff_of_true (ownCells_nil s) (Or.inl ⟨h.col_le, trivial⟩)
  | cons c rest ih =>
    obtain ⟨hc, hrest⟩ := notMem_tab_cons htab
    have hcol := h.col_le
    rw [ownCells_cons_iff, ih (h.putchar hc) hrest]
    by_cases hnl : c = newlineChar
    · subst hnl
      rw [lineLengths_newline, linesFit_cons_of_le hcol]
      exact and_iff_right fun hne => absurd rfl hne
    · rw [lineLengths_glyph hnl hc]
      by_cases hroom : p.2 < 80
      · rw [advance_of_lt hnl hroom]
        exact and_iff_right fun _ => h.ownCell htab hnl hroom
      · have hlast : p.2 = 80 := by omega
        rw [advance_of_last hnl hroom, hlast, linesFit_wrap, h.ownCell_last_iff htab hnl hlast]
        exact ⟨fun hand => ⟨(hand.1 hnl).1, (hand.1 hnl).2, hand.2⟩,
          fun hand => ⟨fun _ => ⟨hand.1, hand.2.1⟩, hand.2.2⟩⟩

/-- **Printed text.** The console keeps every glyph of a text exactly if no line has more than 81 glyphs (the
first one counted with the columns before the cursor), and a line of 81 does not begin in the last row. -/
theorem fb_keeps_text_iff (h : Shows s t) (text : List UInt8) :
    KeepsText text s ↔ LinesFit s.y (lineLengths s.x text) := by
  have hrow := h.row
  have hle := h.row_le
  have htracks : Tracks s 0 (s.y, s.x) :=
    ⟨h.self, (Nat.min_eq_left (by omega)).symm, by show 0 = s.y - 24; omega, rfl⟩
  have htab := tab_notMem_blanks text
  have hiff := ownCells_iff htracks htab
  rw [lineLengths_blanks] at hiff
  rw [← hiff]
  refine ⟨fun hkeeps => hkeeps.cells, fun hown => ⟨hown, ?_, ?_⟩⟩
  · exact fun pre c mid rest hsplit hc hrolls => hown.shown htracks htab hsplit hc hrolls
  · intro a ha
    rw [← fbPrint_blanks]
    exact print_behind htracks htab hown.inside ha

end

/-- A console with the cursor in its first cell. -/
def firstRow : Fb := { lastRow with y := 0, offset := 0 }

theorem firstRow_shows : Shows firstRow (terminalOf firstRow) where
  lineSize := rfl
  width := rfl
  height := rfl
  cellSize := rfl
  row := rfl
  row_le := Nat.zero_le 24
  col := rfl
  col_le := Nat.zero_le 80
  offset := rfl
  cell _ _ _ _ := rfl

/-- A line of 81 glyphs, and then another line. -/
theorem fb_keeps_text_wrap : KeepsText (List.replicate 81 65 ++ [newlineChar, 66]) firstRow := by
  have hlengths : lineLengths 0 (List.replicate 81 65 ++ [newlineChar, 66]) = [81, 1] := by decide +kernel
  refine (fb_keeps_text_iff firstRow_shows _).mpr ?_
  show LinesFit 0 (lineLengths 0 _)
  rw [hlengths]
  exact Or.inr ⟨rfl, by decide, Or.inl ⟨by decide, trivial⟩⟩

/-- The 82nd glyph of a line is stored over the 81st, and the 81st in the last row is stored behind the screen. -/
theorem fb_loses_text :
    ¬ KeepsText (List.replicate 82 65) firstRow ∧ ¬ KeepsText (List.replicate 81 65) lastRow := by
  constructor
  · intro hkeeps
    have hne := hkeeps.cells.own (List.replicate 80 65) 65 [] 65 [] (by decide +kernel) (by decide) (by decide)
    exact hne (by decide +kernel)
  · intro hkeeps
    have hinside := hkeeps.cells.inside (List.replicate 80 65) 65 [] (by decide +kernel) (by decide)
    exact absurd hinside (by decide +kernel)

end DiyOS
