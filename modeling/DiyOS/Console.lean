import DiyOS.Lib.Memory
import DiyOS.Lib.Terminal
import DiyOS.Lib.Word

/-!
# The text console (`drivers/fb.c`)

The screen is an array of two bytes for each cell, a character and its colour. The console keeps the
cursor twice, as `x` and `y` and as the `offset` of its cell in the array. `height` is 24, the number of
the last row.

* **`rollRows_apply`** — the rows move up in place.
* **`Shows`** — the console shows a terminal of 25 rows: same cursor, same cells.
* **`fb_print_refines`** — so it does after any text with lines of at most 80 characters.
-/

namespace DiyOS

open Word

/-- The globals of the console; `mem` are the bytes at `fbmem`. -/
structure Fb where
  mem : Mem
  x : Nat
  y : Nat
  lineSize : Nat
  width : Nat
  height : Nat
  cellSize : Nat
  offset : Nat
  color : UInt8

/-- `fb_update_offset`. -/
def fbUpdateOffset (s : Fb) : Fb := { s with offset := u32 (s.y * s.lineSize + s.x * s.cellSize) }

/-! ## `fb_roll`

The rows move up by one, byte by byte, and the last row is filled with blanks in the colour of the console. -/

/-- The first loop over `j` for the row `i`, after `n` turns. -/
def rollRow (lineSize i : Nat) (m : Mem) : Nat → Mem
  | 0 => m
  | n + 1 =>
    let m := rollRow lineSize i m n
    let j := 2 * n
    let m := m.writeByte (i * lineSize + j) (m ((i + 1) * lineSize + j))
    m.writeByte (i * lineSize + j + 1) (m ((i + 1) * lineSize + j + 1))

/-- The loop over `i`, after `n` turns. -/
def rollRows (lineSize : Nat) (m : Mem) : Nat → Mem
  | 0 => m
  | n + 1 => rollRow lineSize n (rollRows lineSize m n) ((lineSize + 1) / 2)

/-- The loop that blanks the row at `start`, after `n` turns. -/
def blankRow (start : Nat) (color : UInt8) (m : Mem) : Nat → Mem
  | 0 => m
  | n + 1 => ((blankRow start color m n).writeByte (start + 2 * n) 32).writeByte (start + 2 * n + 1) color

def fbRoll (s : Fb) : Fb :=
  { s with
    mem := blankRow (s.height * s.lineSize) s.color (rollRows s.lineSize s.mem s.height)
      ((s.lineSize + 1) / 2) }

/-! ## Printing

What the calls of `fb_cursor_update` write to the ports of the video controller is left out. -/

def fbNewline (s : Fb) : Fb :=
  let s := { s with y := u32 (s.y + 1), x := 0 }
  let s := if s.y > s.height then
      let s := fbRoll s
      { s with y := sub32 s.y 1 }
    else s
  fbUpdateOffset s

/-- `fb_putchar` of a character that is neither a newline nor a tab. -/
def fbGlyph (c : UInt8) (s : Fb) : Fb :=
  let m := (s.mem.writeByte s.offset c).writeByte (s.offset + 1) s.color
  let s := { s with mem := m, x := u32 (s.x + 1) }
  if s.x > s.width then fbNewline s else fbUpdateOffset s

def newlineChar : UInt8 := 10
def tabChar : UInt8 := 9

def fbPutchar (c : UInt8) (s : Fb) : Fb :=
  if c = newlineChar then fbNewline s
  -- `fb_puts` of three blanks, each of which is again passed to `fb_putchar`
  else if c = tabChar then fbGlyph 32 (fbGlyph 32 (fbGlyph 32 s))
  else fbGlyph c s

/-- A text, character by character. -/
def fbPrint (text : List UInt8) (s : Fb) : Fb := text.foldl (fun s c => fbPutchar c s) s

/-! ## What `fb_roll` does to the screen

The copy goes upwards in memory, so that every byte is read before it is overwritten. -/

/-- A row is filled from the one below it. -/
theorem rollRow_apply (m : Mem) {lineSize i n : Nat} (hn : 2 * n ≤ lineSize) (a : Nat) :
    rollRow lineSize i m n a
      = if i * lineSize ≤ a ∧ a < i * lineSize + 2 * n then m (a + lineSize) else m a := by
  induction n generalizing a with
  | zero => rw [if_neg (by omega), rollRow]
  | succ n ih =>
    have hih := ih (by omega)
    have hnext : (i + 1) * lineSize = i * lineSize + lineSize := Nat.succ_mul i lineSize
    -- the two bytes of the row below lie behind everything that has been written
    have hbelow : ∀ k, i * lineSize + lineSize ≤ k → rollRow lineSize i m n k = m k := by
      intro k hk
      rw [hih, if_neg (by omega)]
    have hread : ∀ b, (rollRow lineSize i m n).writeByte (i * lineSize + 2 * n) b
        (i * lineSize + lineSize + 2 * n + 1) = m (i * lineSize + lineSize + 2 * n + 1) := by
      intro b
      rw [Mem.writeByte_of_ne _ _ (by omega), hbelow _ (by omega)]
    unfold rollRow
    simp only [hnext]
    rw [hread, hbelow _ (by omega)]
    by_cases hsecond : a = i * lineSize + 2 * n + 1
    · rw [hsecond, Mem.writeByte_self, if_pos (by omega)]
      congr 1
      omega
    · rw [Mem.writeByte_of_ne _ _ hsecond]
      by_cases hfirst : a = i * lineSize + 2 * n
      · rw [hfirst, Mem.writeByte_self, if_pos (by omega)]
        congr 1
        omega
      · rw [Mem.writeByte_of_ne _ _ hfirst, hih]
        by_cases hin : i * lineSize ≤ a ∧ a < i * lineSize + 2 * n
        · rw [if_pos hin, if_pos (by omega)]
        · rw [if_neg hin, if_neg (by omega)]

theorem rollRows_apply (m : Mem) {w : Nat} (n a : Nat) :
    rollRows (2 * w) m n a = if a < n * (2 * w) then m (a + 2 * w) else m a := by
  induction n generalizing a with
  | zero => rw [Nat.zero_mul, if_neg (Nat.not_lt_zero a), rollRows]
  | succ n ih =>
    have hturns : (2 * w + 1) / 2 = w := by omega
    have hnext : (n + 1) * (2 * w) = n * (2 * w) + 2 * w := Nat.succ_mul n (2 * w)
    rw [rollRows, hturns, rollRow_apply _ (Nat.le_refl _), ih, ih, hnext]
    by_cases hrow : n * (2 * w) ≤ a ∧ a < n * (2 * w) + 2 * w
    · rw [if_pos hrow, if_neg (by omega), if_pos hrow.2]
    · rw [if_neg hrow]
      by_cases hbefore : a < n * (2 * w)
      · rw [if_pos hbefore, if_pos (by omega)]
      · rw [if_neg hbefore, if_neg (by omega)]

theorem blankRow_of_outside (m : Mem) {start n a : Nat} (color : UInt8)
    (h : a < start ∨ start + 2 * n ≤ a) : blankRow start color m n a = m a := by
  induction n with
  | zero => rfl
  | succ n ih =>
    rw [blankRow, Mem.writeByte_of_ne _ _ (by omega), Mem.writeByte_of_ne _ _ (by omega)]
    exact ih (by omega)

theorem blankRow_cell (m : Mem) (start : Nat) (color : UInt8) {n c : Nat} (h : c < n) :
    blankRow start color m n (start + 2 * c) = 32 ∧ blankRow start color m n (start + 2 * c + 1) = color := by
  induction n with
  | zero => omega
  | succ n ih =>
    rw [blankRow]
    by_cases hlast : c = n
    · subst hlast
      rw [Mem.writeByte_of_ne _ _ (by omega), Mem.writeByte_self, Mem.writeByte_self]
      exact ⟨rfl, rfl⟩
    · rw [Mem.writeByte_of_ne _ _ (by omega), Mem.writeByte_of_ne _ _ (by omega),
        Mem.writeByte_of_ne _ _ (by omega), Mem.writeByte_of_ne _ _ (by omega)]
      exact ih (by omega)

/-! ## The terminal that is shown

`Shows` is the refinement: the rows of the console are the cells of a terminal, and the cursor is where the
terminal's is. -/

/-- The character and the colour of a cell. -/
def fbCell (s : Fb) (r c : Nat) : UInt8 × UInt8 := (s.mem (160 * r + 2 * c), s.mem (160 * r + 2 * c + 1))

/-- The console as `fb` sets it up, with the cursor and the cells of `t`. -/
structure Shows (s : Fb) (t : Terminal (UInt8 × UInt8)) : Prop where
  lineSize : s.lineSize = 160
  width : s.width = 80
  height : s.height = 24
  cellSize : s.cellSize = 2
  row : s.y = t.row
  row_le : t.row ≤ 24
  col : s.x = t.col
  col_le : t.col ≤ 80
  offset : s.offset = 160 * s.y + 2 * s.x
  cell : ∀ r ≤ 24, ∀ c < 80, fbCell s r c = t.cell r c

section

variable {s : Fb} {t : Terminal (UInt8 × UInt8)}

/-- A character that does not fill the line. -/
theorem fbGlyph_of_lt (h : Shows s t) (hcol : t.col < 80) (c : UInt8) :
    fbGlyph c s = fbUpdateOffset { s with
      mem := (s.mem.writeByte s.offset c).writeByte (s.offset + 1) s.color, x := s.x + 1 } := by
  have hx := h.col
  have hsucc : u32 (s.x + 1) = s.x + 1 := u32_of_lt (by omega)
  unfold fbGlyph
  simp only [hsucc]
  rw [if_neg (by rw [h.width]; omega)]

/-- **A character** goes to the cell of the cursor. -/
theorem Shows.glyph (h : Shows s t) (hcol : t.col < 80) (c : UInt8) :
    Shows (fbGlyph c s) (t.put (c, s.color)) ∧ (fbGlyph c s).color = s.color
      ∧ ∀ a ≥ 4000, (fbGlyph c s).mem a = s.mem a := by
  have hx := h.col
  have hy := h.row
  have hle := h.row_le
  have hoffset := h.offset
  rw [fbGlyph_of_lt h hcol]
  refine ⟨⟨h.lineSize, h.width, h.height, h.cellSize, h.row, h.row_le, ?_, ?_, ?_, ?_⟩, rfl, ?_⟩
  · show s.x + 1 = t.col + 1
    rw [hx]
  · exact hcol
  · show u32 (s.y * s.lineSize + (s.x + 1) * s.cellSize) = 160 * s.y + 2 * (s.x + 1)
    rw [h.lineSize, h.cellSize, u32_of_lt (by omega)]
    omega
  · intro r hr c' hc'
    have hcell := h.cell r hr c' hc'
    rw [Terminal.put_cell, ← hcell]
    show (Mem.writeByte _ _ _ _, Mem.writeByte _ _ _ _) = _
    by_cases hsame : r = t.row ∧ c' = t.col
    · have hat : 160 * r + 2 * c' = s.offset := by omega
      rw [if_pos hsame, hat, Mem.writeByte_of_ne _ _ (by omega), Mem.writeByte_self, Mem.writeByte_self]
    · -- another cell has other bytes
      rw [if_neg hsame, Mem.writeByte_of_ne _ _ (by omega), Mem.writeByte_of_ne _ _ (by omega),
        Mem.writeByte_of_ne _ _ (by omega), Mem.writeByte_of_ne _ _ (by omega)]
      rfl
  · intro a ha
    show Mem.writeByte _ _ _ a = s.mem a
    rw [Mem.writeByte_of_ne _ _ (by omega), Mem.writeByte_of_ne _ _ (by omega)]

/-- `fb_roll`, cell by cell. -/
theorem fbRoll_apply (h : Shows s t) (a : Nat) :
    (fbRoll s).mem a = blankRow 3840 s.color (rollRows 160 s.mem 24) 80 a := by
  unfold fbRoll
  rw [h.lineSize, h.height]

/-- A newline above the last row. -/
theorem fbNewline_of_lt (h : Shows s t) (hlast : t.row + 1 < 25) :
    fbNewline s = fbUpdateOffset { s with y := s.y + 1, x := 0 } := by
  have hy := h.row
  have hsucc : u32 (s.y + 1) = s.y + 1 := u32_of_lt (by omega)
  unfold fbNewline
  simp only [hsucc]
  rw [if_neg (by rw [h.height]; omega)]

/-- A newline on the last row. -/
theorem fbNewline_of_last (h : Shows s t) (hlast : ¬ t.row + 1 < 25) :
    fbNewline s = fbUpdateOffset { s with mem := (fbRoll s).mem, y := s.y, x := 0 } := by
  have hy := h.row
  have hle := h.row_le
  have hsucc : u32 (s.y + 1) = s.y + 1 := u32_of_lt (by omega)
  have hback : sub32 (s.y + 1) 1 = s.y := sub32_of_le (by omega) (by omega)
  unfold fbNewline
  simp only [hsucc]
  rw [if_pos (by rw [h.height]; omega)]
  unfold fbRoll
  simp only [hback]

theorem fbRoll_of_lt (h : Shows s t) {a : Nat} (ha : a < 3840) : (fbRoll s).mem a = s.mem (a + 160) := by
  have hrows := @rollRows_apply s.mem 80 24 a
  rw [fbRoll_apply h, blankRow_of_outside _ _ (by omega)]
  exact hrows.trans (if_pos ha)

theorem fbRoll_of_ge (h : Shows s t) {a : Nat} (ha : 4000 ≤ a) : (fbRoll s).mem a = s.mem a := by
  have hrows := @rollRows_apply s.mem 80 24 a
  rw [fbRoll_apply h, blankRow_of_outside _ _ (by omega)]
  exact hrows.trans (if_neg (by omega))

/-- **A newline** moves the cursor, or scrolls on the last row. -/
theorem Shows.newline (h : Shows s t) :
    Shows (fbNewline s) (t.newline 25 (32, s.color)) ∧ (fbNewline s).color = s.color
      ∧ ∀ a ≥ 4000, (fbNewline s).mem a = s.mem a := by
  have hy := h.row
  have hle := h.row_le
  by_cases hlast : t.row + 1 < 25
  · rw [fbNewline_of_lt h hlast, Terminal.newline_of_lt hlast]
    refine ⟨⟨h.lineSize, h.width, h.height, h.cellSize, ?_, Nat.le_of_lt_succ hlast, rfl,
      Nat.zero_le 80, ?_, h.cell⟩, rfl,
      fun a _ => rfl⟩
    · show s.y + 1 = t.row + 1
      rw [hy]
    · show u32 ((s.y + 1) * s.lineSize + 0 * s.cellSize) = 160 * (s.y + 1) + 2 * 0
      rw [h.lineSize, h.cellSize, u32_of_lt (by omega)]
      omega
  · rw [fbNewline_of_last h hlast, Terminal.newline_of_last hlast]
    refine ⟨⟨h.lineSize, h.width, h.height, h.cellSize, hy, hle, rfl, Nat.zero_le 80, ?_, ?_⟩, rfl, ?_⟩
    · show u32 (s.y * s.lineSize + 0 * s.cellSize) = 160 * s.y + 2 * 0
      rw [h.lineSize, h.cellSize, u32_of_lt (by omega)]
      omega
    · intro r hr c hc
      show ((fbRoll s).mem (160 * r + 2 * c), (fbRoll s).mem (160 * r + 2 * c + 1))
        = if r + 1 < 25 then t.cell (r + 1) c else (32, s.color)
      by_cases hroll : r + 1 < 25
      · -- a row above the last, filled from the row below it
        have hbelow : 160 * r + 2 * c + 160 = 160 * (r + 1) + 2 * c := by omega
        have hsecond : 160 * r + 2 * c + 1 + 160 = 160 * (r + 1) + 2 * c + 1 := by omega
        rw [if_pos hroll, ← h.cell (r + 1) (by omega) c hc, fbRoll_of_lt h (by omega),
          fbRoll_of_lt h (by omega), hbelow, hsecond]
        rfl
      · have hr24 : 160 * r = 3840 := by omega
        have hblank := blankRow_cell (rollRows 160 s.mem 24) 3840 s.color hc
        rw [if_neg hroll, fbRoll_apply h, fbRoll_apply h, hr24, hblank.1, hblank.2]
    · exact fun a ha => fbRoll_of_ge h ha

/-! ## A text -/

/-- A text whose lines fit, the first one from the column of the cursor. -/
theorem Shows.print (text : List UInt8) {s : Fb} {t : Terminal (UInt8 × UInt8)} (h : Shows s t)
    (htab : tabChar ∉ text) (hfirst : ∀ line, line <+: text → newlineChar ∉ line → t.col + line.length ≤ 80)
    (hlines : ∀ line, line <:+: text → newlineChar ∉ line → line.length ≤ 80) :
    Shows (fbPrint text s) (t.print 25 (32, s.color) newlineChar (fun c => (c, s.color)) text)
      ∧ ∀ a ≥ 4000, (fbPrint text s).mem a = s.mem a := by
  induction text generalizing s t with
  | nil => exact ⟨h, fun a _ => rfl⟩
  | cons c rest ih =>
    have hrest : tabChar ∉ rest := fun hmem => htab (List.mem_cons_of_mem c hmem)
    have hprintable : c ≠ tabChar := by
      rintro rfl
      exact htab List.mem_cons_self
    have hlines' : ∀ line, line <:+: rest → newlineChar ∉ line → line.length ≤ 80 :=
      fun line hline => hlines line (List.infix_cons hline)
    by_cases hc : c = newlineChar
    · -- the next line starts in the first column
      rcases h.newline with ⟨hshows, hcolor, hframe⟩
      have hcol : (t.newline 25 (32, s.color)).col = 0 := by
        unfold Terminal.newline
        split <;> rfl
      have hrun := ih hshows hrest (by
        intro line hline hnl
        rw [hcol, Nat.zero_add]
        exact hlines' line hline.isInfix hnl) hlines'
      have hput : fbPutchar c s = fbNewline s := if_pos hc
      rw [hcolor] at hrun
      unfold fbPrint Terminal.print
      rw [List.foldl_cons, List.foldl_cons, hput, if_pos hc]
      exact ⟨hrun.1, fun a ha => (hrun.2 a ha).trans (hframe a ha)⟩
    · have hroom := hfirst [c] (List.prefix_append [c] rest) (fun hmem => hc (List.mem_singleton.mp hmem).symm)
      obtain ⟨hshows, hcolor, hframe⟩ := h.glyph (show t.col < 80 by
        rw [List.length_singleton] at hroom
        omega) c
      have hrun := ih hshows hrest (by
        intro line hline hnl
        have hlonger := hfirst (c :: line) (List.cons_prefix_cons.mpr ⟨rfl, hline⟩) (by
          rw [List.mem_cons]
          exact fun hmem => hmem.elim (fun heq => hc heq.symm) hnl)
        rw [List.length_cons] at hlonger
        show t.col + 1 + line.length ≤ 80
        omega) hlines'
      have hput : fbPutchar c s = fbGlyph c s := by
        unfold fbPutchar
        rw [if_neg hc, if_neg hprintable]
      rw [hcolor] at hrun
      unfold fbPrint Terminal.print
      rw [List.foldl_cons, List.foldl_cons, hput, if_neg hc]
      exact ⟨hrun.1, fun a ha => (hrun.2 a ha).trans (hframe a ha)⟩

/-- **The console is a scrolling terminal.** From column 0 of any row, every text without tabs whose lines
have at most 80 characters is shown as the terminal of 25 rows shows it, and nothing behind the 25 rows
is written. -/
theorem fb_print_refines (h : Shows s t) (hcol : t.col = 0) {text : List UInt8} (htab : tabChar ∉ text)
    (hlines : ∀ line, line <:+: text → newlineChar ∉ line → line.length ≤ 80) :
    Shows (fbPrint text s) (t.print 25 (32, s.color) newlineChar (fun c => (c, s.color)) text)
      ∧ ∀ a ≥ 4000, (fbPrint text s).mem a = s.mem a := by
  refine h.print text htab ?_ hlines
  intro line hline hnl
  rw [hcol, Nat.zero_add]
  exact hlines line hline.isInfix hnl

end

/-- A console on its last row. -/
def lastRow : Fb where
  mem _ := 32
  x := 0
  y := 24
  lineSize := 160
  width := 80
  height := 24
  cellSize := 2
  offset := 3840
  color := 7

theorem lastRow_shows : Shows lastRow ⟨fun _ _ => (32, 32), 24, 0⟩ where
  lineSize := rfl
  width := rfl
  height := rfl
  cellSize := rfl
  row := rfl
  row_le := le_rfl
  col := rfl
  col_le := by decide
  offset := rfl
  cell _ _ _ _ := rfl

/-- A letter and a newline on the last row: the letter moves up. -/
theorem fb_print_refines_lastRow :
    tabChar ∉ ([65, newlineChar] : List UInt8) ∧ Shows (fbPrint [65, newlineChar] lastRow)
      (Terminal.print 25 (32, 7) newlineChar (fun c => (c, 7)) [65, newlineChar]
        ⟨fun _ _ => (32, 32), 24, 0⟩) :=
  ⟨by decide, (fb_print_refines lastRow_shows rfl (by decide) (by
    intro line hline _
    have hlength := hline.length_le
    simp only [List.length_cons, List.length_nil] at hlength
    omega)).1⟩

end DiyOS
