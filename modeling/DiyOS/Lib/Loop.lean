import Mathlib.Tactic.Common

/-!
# Loops with an exit

One turn of a loop, `turn`, gives the state for the next turn, or the result of the loop; or it does not
return. `loop` takes turns as long as there is fuel.

* **`loop_invariant`** — what every turn keeps holds when the loop ends.
* **`loop_returns`** — a loop ends if every turn returns and brings it closer to its end.
-/

namespace Loop

variable {σ ρ : Type*} (turn : σ → Option (σ ⊕ ρ))

def loop : Nat → σ → Option ρ
  | 0, _ => none
  | n + 1, s =>
    match turn s with
    | none => none
    | some (.inl s) => loop n s
    | some (.inr r) => some r

variable {turn}

theorem loop_invariant {I : σ → Prop} {Q : ρ → Prop} (hturn : ∀ s s', I s → turn s = some (.inl s') → I s')
    (hexit : ∀ s r, I s → turn s = some (.inr r) → Q r) {n : Nat} {s : σ} {r : ρ} (hs : I s)
    (h : loop turn n s = some r) : Q r := by
  induction n generalizing s with
  | zero => cases h
  | succ n ih =>
    rw [loop] at h
    cases hnext : turn s with
    | none =>
      rw [hnext] at h
      cases h
    | some next =>
      rw [hnext] at h
      cases next with
      | inl s' => exact ih (hturn s s' hs hnext) h
      | inr r' =>
        rw [← Option.some.inj h]
        exact hexit s r' hs hnext

/-- `μ` bounds the turns that are left. -/
theorem loop_returns {I : σ → Prop} {Q : ρ → Prop} {μ : σ → ℕ}
    (hturn : ∀ s, I s → (∃ r, turn s = some (.inr r) ∧ Q r)
      ∨ ∃ s', turn s = some (.inl s') ∧ I s' ∧ μ s' < μ s)
    {n : ℕ} {s : σ} (hs : I s) (hn : μ s < n) : ∃ r, loop turn n s = some r ∧ Q r := by
  induction n generalizing s with
  | zero => exact absurd hn (Nat.not_lt_zero _)
  | succ n ih =>
    rw [loop]
    rcases hturn s hs with ⟨r, hnext, hr⟩ | ⟨s', hnext, hs', hless⟩
    · rw [hnext]
      exact ⟨r, rfl, hr⟩
    · rw [hnext]
      exact ih hs' (by omega)

end Loop
