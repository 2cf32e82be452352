import Mathlib.Data.List.Basic
import Mathlib.Tactic.Common

/-!
# C strings in a buffer

A pointer into a buffer is what the buffer holds from there on. The string at a pointer ends before
the first NUL.

* **`strings`** — that many consecutive strings, each from after the NUL of the one before.
* **`strings_laidOut`** — strings laid out one after the other are read back.
-/

/-- A string: its bytes, without the NUL that ends it. -/
abbrev CString := List UInt8

namespace CString

/-- The string at the pointer `p`. -/
def read (p : List UInt8) : CString := p.takeWhile (· ≠ 0)

/-- The pointer after the NUL of the string at `p`. -/
def skip (p : List UInt8) : List UInt8 := (p.dropWhile (· ≠ 0)).tail

/-- The next `n` strings from `p` on. -/
def strings : Nat → List UInt8 → List CString
  | 0, _ => []
  | n + 1, p => read p :: strings n (skip p)

/-- What is read of a string ends before its NUL. -/
theorem zero_not_mem_read (p : List UInt8) : 0 ∉ read p := by
  intro h
  have hall : (read p).all (· ≠ 0) = true := List.all_takeWhile
  exact of_decide_eq_true (List.all_eq_true.mp hall 0 h) rfl

/-- No string that is read has a NUL in it. -/
theorem zero_not_mem_strings (n : Nat) (p : List UInt8) : ∀ s ∈ strings n p, 0 ∉ s := by
  induction n generalizing p with
  | zero => exact nofun
  | succ n ih =>
    rw [strings, List.forall_mem_cons]
    exact ⟨zero_not_mem_read p, ih (skip p)⟩

/-- The strings `ss`, each followed by a NUL. -/
def laidOut (ss : List CString) : List UInt8 := ss.flatMap (· ++ [0])

/-- A string in a layout is shorter than the layout: at least its own NUL stands behind it. -/
theorem length_lt_laidOut {s : CString} {ss : List CString} (hs : s ∈ ss) :
    s.length < (laidOut ss).length := by
  have hmem : s ++ [0] ∈ ss.map (· ++ [0]) := List.mem_map.mpr ⟨s, hs, rfl⟩
  have hle := (List.sublist_flatten_of_mem hmem).length_le
  rw [List.length_append, ← List.flatMap_def] at hle
  exact hle

theorem ne_zero_of_mem {s : CString} (h : 0 ∉ s) : ∀ c ∈ s, decide (c ≠ 0) = true := by
  intro c hc
  exact decide_eq_true fun heq => h (heq ▸ hc)

theorem read_append {s : CString} (h : 0 ∉ s) (rest : List UInt8) : read (s ++ 0 :: rest) = s := by
  unfold read
  rw [List.takeWhile_append_of_pos (ne_zero_of_mem h)]
  simp

theorem skip_append {s : CString} (h : 0 ∉ s) (rest : List UInt8) : skip (s ++ 0 :: rest) = rest := by
  unfold skip
  rw [List.dropWhile_append_of_pos (ne_zero_of_mem h)]
  simp

/-- **Strings that are laid out** one behind the other are read back in order. -/
theorem strings_laidOut {ss : List CString} (h : ∀ s ∈ ss, 0 ∉ s) (rest : List UInt8) :
    strings ss.length (laidOut ss ++ rest) = ss := by
  induction ss with
  | nil => rfl
  | cons s ss ih =>
    have hs : 0 ∉ s := h s List.mem_cons_self
    have hlaid : laidOut (s :: ss) ++ rest = s ++ 0 :: (laidOut ss ++ rest) := by
      simp [laidOut]
    rw [List.length_cons, strings, hlaid, read_append hs, skip_append hs,
      ih fun t ht => h t (List.mem_cons_of_mem _ ht)]

end CString
