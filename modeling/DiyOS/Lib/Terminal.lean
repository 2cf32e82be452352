import Mathlib.Logic.Function.Basic
import Mathlib.Tactic.Common

/-!
# A scrolling terminal

A terminal has cells in rows and columns, and a cursor. A character goes to the cell of the cursor,
which moves one column to the right; a newline moves it to the first column of the next row, and on the
last row scrolls all rows up by one and blanks the last. The cells below the last row mean nothing.

* **`put_cell`** — a character changes the cell of the cursor only.
* **`newline_of_lt`, `newline_of_last`** — a newline within the terminal, and on its last row.
-/

structure Terminal (α : Type*) where
  cell : Nat → Nat → α
  row : Nat
  col : Nat

namespace Terminal

variable {α β : Type*}

/-- A character in the cell of the cursor. -/
def put (a : α) (t : Terminal α) : Terminal α where
  cell := Function.update t.cell t.row (Function.update (t.cell t.row) t.col a)
  row := t.row
  col := t.col + 1

/-- A newline, on a terminal of `rows` rows. -/
def newline (rows : Nat) (blank : α) (t : Terminal α) : Terminal α :=
  if t.row + 1 < rows then ⟨t.cell, t.row + 1, 0⟩
  else ⟨fun r c => if r + 1 < rows then t.cell (r + 1) c else blank, t.row, 0⟩

/-- A text, in which `nl` is the newline, and `glyph c` the cell of another character. -/
def print [DecidableEq β] (rows : Nat) (blank : α) (nl : β) (glyph : β → α) (text : List β)
    (t : Terminal α) : Terminal α :=
  text.foldl (fun t c => if c = nl then t.newline rows blank else t.put (glyph c)) t

/-- A character that is put changes the cell at the cursor, and no other. -/
theorem put_cell (a : α) (t : Terminal α) (r c : Nat) :
    (t.put a).cell r c = if r = t.row ∧ c = t.col then a else t.cell r c := by
  show Function.update t.cell t.row (Function.update (t.cell t.row) t.col a) r c = _
  by_cases hr : r = t.row
  · subst hr
    rw [Function.update_self]
    by_cases hc : c = t.col
    · subst hc
      rw [Function.update_self, if_pos ⟨rfl, rfl⟩]
    · rw [Function.update_of_ne hc, if_neg fun hboth => hc hboth.2]
  · rw [Function.update_of_ne hr, if_neg fun hboth => hr hboth.1]

theorem newline_of_lt {rows : Nat} {t : Terminal α} (h : t.row + 1 < rows) (blank : α) :
    t.newline rows blank = ⟨t.cell, t.row + 1, 0⟩ := if_pos h

theorem newline_of_last {rows : Nat} {t : Terminal α} (h : ¬ t.row + 1 < rows) (blank : α) :
    t.newline rows blank
      = ⟨fun r c => if r + 1 < rows then t.cell (r + 1) c else blank, t.row, 0⟩ := if_neg h

end Terminal
