import Mathlib.Data.List.Basic
import Mathlib.Data.Nat.ModEq
import Mathlib.Logic.Function.Basic
import Mathlib.Tactic.Common

/-!
# Circular buffers and the FIFO they hold

A circular buffer keeps `count` elements of an array of `size` slots, the oldest in slot `front`
and each next one in the next slot, slot `0` following slot `size - 1`. `RingBuffer.contents` reads
them off, oldest first.

* **`contents_push`** — writing the slot after the newest element appends to the contents.
* **`contents_succ`** — advancing `front` by one slot removes the oldest element.
* **`Fifo.push`, `Fifo.pop`** — what a buffer of bounded capacity is for, on plain lists.
-/

namespace RingBuffer

variable {α : Type*}

/-- The slot `k` places after `front`. -/
def slot (front k size : Nat) : Nat := (front + k) % size

/-- The `count` elements held from slot `front` on, oldest first. -/
def contents (data : Nat → α) (front count size : Nat) : List α :=
  (List.range count).map fun k => data (slot front k size)

theorem slot_lt (front k : Nat) {size : Nat} (h : 0 < size) : slot front k size < size :=
  Nat.mod_lt _ h

/-- Fewer than `size` places apart, two slots differ. -/
theorem slot_ne {front j k size : Nat} (hjk : j < k) (hk : k < size) :
    slot front j size ≠ slot front k size := by
  intro heq
  have hdvd : size ∣ (front + k) - (front + j) := (Nat.modEq_iff_dvd' (by omega)).mp heq
  have hle := Nat.le_of_dvd (by omega) hdvd
  omega

/-- Writing a slot that holds no element leaves the contents as they were. -/
theorem contents_update_free {data : Nat → α} {front count size i : Nat} (x : α)
    (hfree : ∀ k < count, slot front k size ≠ i) :
    contents (Function.update data i x) front count size = contents data front count size := by
  apply List.map_congr_left
  intro k hk
  exact Function.update_of_ne (hfree k (List.mem_range.mp hk)) _ _

/-- An element that is stored behind the last one is the new last one. -/
theorem contents_push {data : Nat → α} {front count size : Nat} (x : α) (hc : count < size) :
    contents (Function.update data (slot front count size) x) front (count + 1) size
      = contents data front count size ++ [x] := by
  have hold : contents (Function.update data (slot front count size) x) front count size
      = contents data front count size :=
    contents_update_free x fun k hk => slot_ne hk hc
  rw [contents, List.range_succ, List.map_append, ← contents, hold]
  simp

theorem contents_succ (data : Nat → α) (front count size : Nat) :
    contents data front (count + 1) size
      = data (slot front 0 size) :: contents data (slot front 1 size) count size := by
  rw [contents, List.range_succ_eq_map, List.map_cons, List.map_map, contents]
  congr 1
  apply List.map_congr_left
  intro k _
  show data ((front + (k + 1)) % size) = data (((front + 1) % size + k) % size)
  rw [Nat.mod_add_mod, Nat.add_assoc, Nat.add_comm 1 k]

end RingBuffer

/-! ## The bounded FIFO

What a ring buffer is for: elements leave in the order they came, and one that finds the queue full is lost. -/

namespace Fifo

variable {α : Type*}

/-- Append, unless `capacity` elements are held. -/
def push (capacity : Nat) (held : List α) (x : α) : List α :=
  if held.length < capacity then held ++ [x] else held

/-- Drop the oldest element, if there is one. -/
def pop (held : List α) : List α := held.tail

end Fifo
