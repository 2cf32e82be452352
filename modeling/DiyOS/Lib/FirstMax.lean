import Mathlib.Order.Lattice
import Mathlib.Data.List.Basic
import Mathlib.Tactic.Common

/-!
# The first greatest element of a list

The greatest key among the elements that meet a condition, and the first element with that key: two
passes over a list, the first of which starts from a floor.

* **`IsFirstMax`** — what the second pass should find.
* **`find_maxKey`** — it does, as soon as one element that meets the condition has a key that is not
  below the floor.
-/

namespace FirstMax

variable {α β : Type*} [LinearOrder β] (ok : α → Prop) [DecidablePred ok] (key : α → β)

/-- `x` meets the condition with the greatest key, and no element before it does. -/
def IsFirstMax (xs : List α) (x : α) : Prop :=
  ∃ before after, xs = before ++ x :: after ∧ ok x ∧ (∀ y ∈ xs, ok y → key y ≤ key x)
    ∧ ∀ y ∈ before, ok y → key y < key x

/-- The greater of `m` and the key of `x`, if `x` meets the condition. -/
def raise (m : β) (x : α) : β := if ok x ∧ m < key x then key x else m

/-- The first pass: the greatest key above `floor`. -/
def maxKey (xs : List α) (floor : β) : β := xs.foldl (raise ok key) floor

theorem le_raise (m : β) (x : α) : m ≤ raise ok key m x := by
  unfold raise
  split
  · next hnew => exact le_of_lt hnew.2
  · exact le_refl _

theorem key_le_raise {x : α} (hok : ok x) (m : β) : key x ≤ raise ok key m x := by
  unfold raise
  split
  · exact le_refl _
  · next hold => exact not_lt.mp fun hlt => hold ⟨hok, hlt⟩

theorem le_maxKey (xs : List α) (floor : β) : floor ≤ maxKey ok key xs floor := by
  induction xs generalizing floor with
  | nil => exact le_refl _
  | cons x xs ih => exact le_trans (le_raise ok key floor x) (ih _)

/-- `maxKey` is at least the key of every element that counts. -/
theorem key_le_maxKey {xs : List α} {x : α} (hx : x ∈ xs) (hok : ok x) (floor : β) :
    key x ≤ maxKey ok key xs floor := by
  induction xs generalizing floor with
  | nil => cases hx
  | cons y xs ih =>
    rcases List.mem_cons.mp hx with rfl | hx
    · exact le_trans (key_le_raise ok key hok floor) (le_maxKey ok key xs _)
    · exact ih hx _

/-- Above the floor, the greatest key is the key of some element. -/
theorem maxKey_attained (xs : List α) (floor : β) :
    maxKey ok key xs floor = floor ∨ ∃ x ∈ xs, ok x ∧ key x = maxKey ok key xs floor := by
  induction xs generalizing floor with
  | nil => exact Or.inl rfl
  | cons y xs ih =>
    by_cases hnew : ok y ∧ floor < key y
    · have hstep : maxKey ok key (y :: xs) floor = maxKey ok key xs (key y) := by
        rw [maxKey, List.foldl_cons, raise, if_pos hnew, maxKey]
      rw [hstep]
      refine Or.inr ?_
      rcases ih (key y) with hsame | ⟨x, hx, hok, hkey⟩
      · exact ⟨y, List.mem_cons_self, hnew.1, hsame.symm⟩
      · exact ⟨x, List.mem_cons_of_mem _ hx, hok, hkey⟩
    · have hstep : maxKey ok key (y :: xs) floor = maxKey ok key xs floor := by
        rw [maxKey, List.foldl_cons, raise, if_neg hnew, maxKey]
      rw [hstep]
      rcases ih floor with hsame | ⟨x, hx, hok, hkey⟩
      · exact Or.inl hsame
      · exact Or.inr ⟨x, List.mem_cons_of_mem _ hx, hok, hkey⟩

/-- **The two passes.** If an element that meets the condition has a key that is not below the floor,
looking for the greatest key finds an element, and it is the first greatest one. -/
theorem find_maxKey {xs : List α} {floor : β} {w : α} (hw : w ∈ xs) (hok : ok w)
    (hfloor : floor ≤ key w) :
    ∃ x, xs.find? (fun x => ok x ∧ key x = maxKey ok key xs floor) = some x
      ∧ IsFirstMax ok key xs x := by
  have hle := key_le_maxKey ok key hw hok floor
  -- some element has the greatest key: where that is the floor, `w` does
  obtain ⟨y, hy, hyok, hykey⟩ : ∃ y ∈ xs, ok y ∧ key y = maxKey ok key xs floor := by
    rcases maxKey_attained ok key xs floor with hsame | hex
    · rw [hsame] at hle ⊢
      exact ⟨w, hw, hok, le_antisymm hle hfloor⟩
    · exact hex
  cases hfind : xs.find? (fun x => ok x ∧ key x = maxKey ok key xs floor) with
  | none =>
    have hnot := List.find?_eq_none.mp hfind y hy
    exact absurd (decide_eq_true (And.intro hyok hykey)) hnot
  | some x =>
    rcases List.find?_eq_some_iff_append.mp hfind with ⟨hx, before, after, hsplit, hbefore⟩
    rcases of_decide_eq_true hx with ⟨hxok, hxkey⟩
    refine ⟨x, rfl, before, after, hsplit, hxok, ?_, ?_⟩
    · intro z hz hzok
      rw [hxkey]
      exact key_le_maxKey ok key hz hzok floor
    · intro z hz hzok
      have hzmem : z ∈ xs := by
        rw [hsplit]
        exact List.mem_append_left _ hz
      -- before `x` nothing has the greatest key
      have hzne : ¬ (ok z ∧ key z = maxKey ok key xs floor) := by
        simpa only [Bool.not_eq_true', decide_eq_false_iff_not] using hbefore z hz
      rw [hxkey]
      exact lt_of_le_of_ne (key_le_maxKey ok key hzmem hzok floor) fun heq => hzne ⟨hzok, heq⟩

end FirstMax
