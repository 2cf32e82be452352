import DiyOS.Lib.Word

/-!
# Pointers and calls that do not return

Pointers are addresses. Functions whose loops end only for some states take fuel, one unit for each
iteration, and answer `Halt.loops` when it runs out: a call returns when some amount of fuel gives a
result.
-/

namespace DiyOS

/-- The null pointer. -/
def null : Nat := 0

/-- Why a call gives no result: it ended in `PANIC`, it (or a function it calls) loops beyond the
fuel it was given, or it used a value that the C program leaves undefined. -/
inductive Halt where
  | panic (message : String)
  | loops
  | undefined
  deriving DecidableEq

/-- A sequence of calls returns when each of them does. -/
theorem bind_eq_ok {α β : Type} {x : Except Halt α} {f : α → Except Halt β} {b : β} :
    (x >>= f) = .ok b ↔ ∃ a, x = .ok a ∧ f a = .ok b := by
  cases x with
  | error e => exact iff_of_false (fun h => nomatch h) fun ⟨_, h, _⟩ => nomatch h
  | ok a => exact ⟨fun h => ⟨a, rfl, h⟩, fun ⟨_, heq, h⟩ => Except.ok.inj heq ▸ h⟩

/-- The answer of a call, whatever the fuel from some amount on. -/
def Settles {α : Type} (call : Nat → Except Halt α) (answer : Except Halt α) : Prop :=
  ∃ enough, ∀ fuel, enough ≤ fuel → call fuel = answer

theorem Settles.unique {α : Type} {call : Nat → Except Halt α} {a b : Except Halt α}
    (ha : Settles call a) (hb : Settles call b) : a = b := by
  obtain ⟨n, hn⟩ := ha
  obtain ⟨k, hk⟩ := hb
  exact (hn (max n k) (Nat.le_max_left n k)).symm.trans (hk (max n k) (Nat.le_max_right n k))

/-- A call that makes another one with one unit of fuel less, and answers the same. -/
theorem Settles.succ {α : Type} {call inner : Nat → Except Halt α} {a : Except Halt α}
    (h : Settles inner a) (heq : ∀ fuel, call (fuel + 1) = inner fuel) : Settles call a := by
  obtain ⟨n, hn⟩ := h
  refine ⟨n + 1, fun fuel hfuel => ?_⟩
  obtain ⟨fuel, rfl⟩ := Nat.exists_eq_add_of_lt (show 0 < fuel by omega)
  rw [Nat.zero_add, heq]
  exact hn fuel (by omega)

theorem settles_const {α : Type} {call : Nat → Except Halt α} {a : Except Halt α}
    (h : ∀ fuel, call (fuel + 1) = a) : Settles call a :=
  @Settles.succ α call (fun _ => a) a ⟨0, fun _ _ => rfl⟩ h

/-- Two calls one after the other. -/
theorem Settles.bind {α β : Type} {call : Nat → Except Halt α} {rest : Nat → α → Except Halt β} {a : α}
    {b : Except Halt β} (h : Settles call (.ok a)) (hrest : Settles (fun fuel => rest fuel a) b) :
    Settles (fun fuel => call fuel >>= rest fuel) b := by
  obtain ⟨n, hn⟩ := h
  obtain ⟨k, hk⟩ := hrest
  refine ⟨max n k, fun fuel hfuel => ?_⟩
  show (call fuel >>= rest fuel) = b
  rw [hn fuel (by omega)]
  exact hk fuel (by omega)

end DiyOS
