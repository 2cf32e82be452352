import Mathlib.Data.List.Basic
import Mathlib.Logic.Function.Basic
import Mathlib.Tactic.Common

/-!
# Stores into a raster

A raster is a memory whose rows of `w` cells stand one after the other; the cell of column `x` and row `y`
is the cell `y * w + x`. Drawing is a list of stores.

* **`index_inj`** — different positions within the width have different cells.
* **`plot_of_mem`**, **`plot_of_notMem`** — what a list of stores leaves in a cell.
-/

namespace Raster

/-! ## Cells

A raster of `w` columns is stored row by row. -/

def index (w x y : Nat) : Nat := y * w + x

/-- Different cells have different indices. -/
theorem index_inj {w x y x' y' : Nat} (hx : x < w) (hx' : x' < w) (h : index w x y = index w x' y') :
    x = x' ∧ y = y' := by
  unfold index at h
  have hmod := congrArg (· % w) h
  simp only [Nat.mul_add_mod_self_right, Nat.mod_eq_of_lt hx, Nat.mod_eq_of_lt hx'] at hmod
  refine ⟨hmod, ?_⟩
  rw [hmod] at h
  exact Nat.eq_of_mul_eq_mul_right (Nat.zero_lt_of_lt hx) (Nat.add_right_cancel h)

theorem index_lt {w h x y : Nat} (hx : x < w) (hy : y < h) : index w x y < w * h := by
  have hrow : (y + 1) * w ≤ h * w := Nat.mul_le_mul_right w hy
  rw [Nat.add_mul, Nat.one_mul, Nat.mul_comm h] at hrow
  unfold index
  omega

/-- The cell behind a row is the first cell of the next row. -/
theorem index_width (w y : Nat) : index w w y = index w 0 (y + 1) := by
  unfold index
  rw [Nat.add_mul, Nat.one_mul, Nat.add_zero]

/-! ## Stores

A list of stores to addresses, later ones over earlier ones. -/

section

variable {α β : Type*} [DecidableEq α]

/-- The stores `ws`, one after the other. -/
def plot (f : α → β) (ws : List (α × β)) : α → β := ws.foldl (fun f w => Function.update f w.1 w.2) f

theorem plot_cons (f : α → β) (w : α × β) (ws : List (α × β)) :
    plot f (w :: ws) = plot (Function.update f w.1 w.2) ws := rfl

theorem plot_of_notMem (f : α → β) {ws : List (α × β)} {a : α} (h : ∀ w ∈ ws, w.1 ≠ a) :
    plot f ws a = f a := by
  induction ws generalizing f with
  | nil => rfl
  | cons w ws ih =>
    rw [plot_cons, ih _ fun v hv => h v (List.mem_cons_of_mem w hv)]
    exact Function.update_of_ne (h w List.mem_cons_self).symm _ _

/-- Where all stores into a cell agree. -/
theorem plot_of_mem (f : α → β) {ws : List (α × β)} {a : α} {b : β} (hmem : ∃ w ∈ ws, w.1 = a)
    (huniq : ∀ w ∈ ws, w.1 = a → w.2 = b) : plot f ws a = b := by
  induction ws generalizing f with
  | nil =>
    obtain ⟨w, hw, _⟩ := hmem
    cases hw
  | cons w ws ih =>
    rw [plot_cons]
    have hrest : ∀ v ∈ ws, v.1 = a → v.2 = b := fun v hv => huniq v (List.mem_cons_of_mem w hv)
    by_cases hlater : ∃ v ∈ ws, v.1 = a
    · exact ih _ hlater hrest
    · obtain ⟨v, hv, hva⟩ := hmem
      rcases List.mem_cons.mp hv with rfl | hv
      · rw [plot_of_notMem _ fun v' hv' heq => hlater ⟨v', hv', heq⟩, ← hva, Function.update_self]
        exact huniq v List.mem_cons_self hva
      · exact absurd ⟨v, hv, hva⟩ hlater

end

end Raster
