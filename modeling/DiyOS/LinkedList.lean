import Mathlib.Data.List.Basic
import Mathlib.Tactic.Common

/-!
# Linked lists (`lib/list.c`)

A list is the sequence of its entries' data. The magic number of an entry is set where the entry is
made and never changes; the checks on it, and the ones for a failed `malloc`, are left out.
-/

namespace DiyOS

variable {α : Type}

/-- `list_add`. -/
def listAdd (l : List α) (data : α) : List α := l ++ [data]

/-- `list_foreach`: the first entry on which the iterator returns false. -/
def listForeach : List α → (α → Bool) → Option α
  | [], _ => none
  | entry :: rest, it => if it entry = false then some entry else listForeach rest it

/-- `list_get`: the entry `idx` links behind the first one. -/
def listGet : List α → Nat → Option α
  | [], _ => none
  | entry :: _, 0 => some entry
  | _ :: rest, idx + 1 => listGet rest idx

theorem listGet_eq_getElem (l : List α) (idx : Nat) : listGet l idx = l[idx]? := by
  induction l generalizing idx with
  | nil => rfl
  | cons entry rest ih =>
    cases idx with
    | zero => rfl
    | succ idx => exact (ih idx).trans List.getElem?_cons_succ.symm

/-- `list_foreach` finds the first entry on which the iterator returns false. -/
theorem listForeach_eq_find (l : List α) (it : α → Bool) :
    listForeach l it = l.find? fun x => !it x := by
  induction l with
  | nil => rfl
  | cons x l ih =>
    rw [listForeach, List.find?_cons, ih]
    cases it x <;> rfl

end DiyOS
