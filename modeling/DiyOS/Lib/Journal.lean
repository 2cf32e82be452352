import DiyOS.Lib.Extent
import DiyOS.Lib.Memory

/-!
# A memory with a journal of its writes

A journal is a memory with the extents that were written to, the oldest first.

* **`Extends`** — one journal goes on from another by writes inside an extent; the memory outside that
  extent is left (`Extends.agree`).
-/

namespace Extent

/-- The addresses of `w` are addresses of `x`. -/
def Inside (w x : Extent) : Prop := x.start ≤ w.start ∧ w.fin ≤ x.fin

instance (w x : Extent) : Decidable (Inside w x) := inferInstanceAs (Decidable (_ ∧ _))

theorem Inside.trans {w x y : Extent} (h : Inside w x) (h' : Inside x y) : Inside w y :=
  ⟨Nat.le_trans h'.1 h.1, Nat.le_trans h.2 h'.2⟩

end Extent

structure Journal where
  mem : Mem
  writes : List Extent

namespace Journal

/-- The byte `b` is written at `a`. -/
def byte (j : Journal) (a : Nat) (b : UInt8) : Journal :=
  ⟨j.mem.writeByte a b, j.writes ++ [⟨a, 1⟩]⟩

/-- The word `w` is written at `a`. -/
def word (j : Journal) (a w : Nat) : Journal := ⟨j.mem.writeWord a w, j.writes ++ [⟨a, 4⟩]⟩

@[simp] theorem byte_mem (j : Journal) (a : Nat) (b : UInt8) :
    (j.byte a b).mem = j.mem.writeByte a b := rfl

@[simp] theorem word_mem (j : Journal) (a w : Nat) : (j.word a w).mem = j.mem.writeWord a w := rfl

/-- `j'` goes on from `j` by writes inside `x`. -/
structure Extends (x : Extent) (j j' : Journal) : Prop where
  writes : ∃ ws, j'.writes = j.writes ++ ws ∧ ∀ w ∈ ws, w.Inside x
  frame : ∀ a, a < x.start ∨ x.fin ≤ a → j'.mem a = j.mem a

namespace Extends

variable {x y : Extent} {j j' j'' : Journal}

theorem refl (x : Extent) (j : Journal) : Extends x j j :=
  ⟨⟨[], by simp, nofun⟩, fun _ _ => rfl⟩

theorem trans (h : Extends x j j') (h' : Extends x j' j'') : Extends x j j'' := by
  obtain ⟨ws, heq, hws⟩ := h.writes
  obtain ⟨ws', heq', hws'⟩ := h'.writes
  refine ⟨⟨ws ++ ws', by rw [heq', heq, List.append_assoc], ?_⟩, ?_⟩
  · intro w hw
    exact (List.mem_append.mp hw).elim (hws w) (hws' w)
  · intro a ha
    rw [h'.frame a ha, h.frame a ha]

theorem mono (h : Extends x j j') (hin : x.Inside y) : Extends y j j' := by
  obtain ⟨ws, heq, hws⟩ := h.writes
  refine ⟨⟨ws, heq, fun w hw => (hws w hw).trans hin⟩, ?_⟩
  intro a ha
  have hlo := hin.1
  have hhi := hin.2
  exact h.frame a (by omega)

/-- A range outside the extent holds what it held. -/
theorem agree (h : Extends x j j') {a n : Nat} (ha : a + n ≤ x.start ∨ x.fin ≤ a) :
    Mem.Agree j.mem j'.mem a n :=
  fun k hk => h.frame (a + k) (by omega)

end Extends

/-- A byte that is written inside the extent keeps to it. -/
theorem extends_byte (j : Journal) {x : Extent} {a : Nat} (b : UInt8)
    (h : Extent.Inside ⟨a, 1⟩ x) : Extends x j (j.byte a b) := by
  have hlo : x.start ≤ a := h.1
  have hhi : a + 1 ≤ x.fin := h.2
  refine ⟨⟨[⟨a, 1⟩], rfl, by simpa using h⟩, ?_⟩
  intro c hc
  exact Mem.writeByte_of_ne _ _ (by omega)

/-- And so does a word. -/
theorem extends_word (j : Journal) {x : Extent} {a : Nat} (w : Nat)
    (h : Extent.Inside ⟨a, 4⟩ x) : Extends x j (j.word a w) := by
  have hlo : x.start ≤ a := h.1
  have hhi : a + 4 ≤ x.fin := h.2
  refine ⟨⟨[⟨a, 4⟩], rfl, by simpa using h⟩, ?_⟩
  intro c hc
  exact Mem.writeWord_of_outside _ _ (by omega)

end Journal
