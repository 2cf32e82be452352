import Mathlib.Data.Fintype.Pigeonhole
import Mathlib.Data.Set.Finite.Basic
import Mathlib.Logic.Relation
import Mathlib.Tactic.Common

/-!
# Walks of a partial function

A loop with one variable is a partial function `step`: the value for the next turn, or nothing where the
loop ends.

* **`Ends`** — the walk from `a` ends.
* **`ends_iff_no_cycle`** — among finitely many values it does so unless it runs into a cycle.
* **`ends_of_lt`** — and certainly if every turn leads upwards.
-/

namespace Walk

variable {α : Type*} (step : α → Option α)

/-- The value in turn `n`, if the walk from `a` has not ended before. -/
def visit : Nat → α → Option α
  | 0, a => some a
  | n + 1, a => (step a).bind (visit n)

/-- `step` leads from `a` to `b`. -/
def Leads (a b : α) : Prop := step a = some b

def Ends (a : α) : Prop := ∃ n, visit step n a = none

/-- `a` leads to a value that leads back to itself. -/
def RunsIntoCycle (a : α) : Prop :=
  ∃ b, Relation.ReflTransGen (Leads step) a b ∧ Relation.TransGen (Leads step) b b

variable {step} {a b : α}

theorem visit_succ (n : Nat) (a : α) : visit step (n + 1) a = (visit step n a).bind step := by
  induction n generalizing a with
  | zero => cases h : step a <;> simp [visit, h]
  | succ n ih =>
    rw [visit]
    cases h : step a with
    | none => simp [visit, h]
    | some b => simpa [visit, h] using ih b

theorem visit_of_leads (h : Leads step a b) (n : Nat) : visit step (n + 1) a = visit step n b := by
  unfold Leads at h
  simp [visit, h]

/-- The walk goes where the steps lead. -/
theorem reaches_of_visit {n : Nat} (h : visit step n a = some b) :
    Relation.ReflTransGen (Leads step) a b := by
  induction n generalizing b with
  | zero =>
    cases h
    exact .refl
  | succ n ih =>
    rw [visit_succ] at h
    rcases Option.bind_eq_some_iff.mp h with ⟨c, hc, hstep⟩
    exact (ih hc).tail hstep

theorem ends_of_leads (h : Leads step a b) (hb : Ends step b) : Ends step a := by
  rcases hb with ⟨n, hn⟩
  exact ⟨n + 1, (visit_of_leads h n).trans hn⟩

/-- What the walk reaches ends if the walk does. -/
theorem Ends.of_reaches (h : Ends step a) (hab : Relation.ReflTransGen (Leads step) a b) : Ends step b := by
  induction hab with
  | refl => exact h
  | tail _ hstep ih =>
    rcases ih with ⟨n, hn⟩
    cases n with
    | zero => cases hn
    | succ n => exact ⟨n, (visit_of_leads hstep n).symm.trans hn⟩

/-- A walk that ends never comes back. -/
theorem Ends.not_cycle (h : Ends step a) : ¬ Relation.TransGen (Leads step) a a := by
  rcases h with ⟨n, hn⟩
  induction n generalizing a with
  | zero => cases hn
  | succ n ih =>
    intro hcycle
    rcases Relation.TransGen.head'_iff.mp hcycle with ⟨b, hstep, hback⟩
    apply ih ((visit_of_leads hstep n).symm.trans hn)
    exact Relation.TransGen.tail' hback hstep

/-- **Termination.** Among finitely many values a walk ends if and only if it does not run into a
cycle. -/
theorem ends_iff_no_cycle (hfinite : {b | Relation.ReflTransGen (Leads step) a b}.Finite) :
    Ends step a ↔ ¬ RunsIntoCycle step a := by
  constructor
  · rintro h ⟨b, hab, hcycle⟩
    exact (h.of_reaches hab).not_cycle hcycle
  · intro hnone
    by_contra hends
    have hsome : ∀ n, ∃ b, visit step n a = some b := fun n =>
      Option.ne_none_iff_exists'.mp fun h => hends ⟨n, h⟩
    choose f hf using hsome
    -- infinitely many turns, finitely many values: some value comes twice
    have hmem : ∀ n, f n ∈ {b | Relation.ReflTransGen (Leads step) a b} := fun n => reaches_of_visit (hf n)
    have htype := hfinite.to_subtype
    obtain ⟨i, j, hne, heq⟩ := Finite.exists_ne_map_eq_of_infinite fun n =>
      (⟨f n, hmem n⟩ : {b | Relation.ReflTransGen (Leads step) a b})
    have hsame : f i = f j := congrArg Subtype.val heq
    have hlater : ∀ n k, Relation.TransGen (Leads step) (f n) (f (n + k + 1)) := by
      intro n k
      induction k with
      | zero =>
        apply Relation.TransGen.single
        have hnext : visit step (n + 1) a = (visit step n a).bind step := visit_succ n a
        rw [hf, hf] at hnext
        exact hnext.symm
      | succ k ih =>
        have hnext : visit step (n + k + 1 + 1) a = (visit step (n + k + 1) a).bind step :=
          visit_succ (n + k + 1) a
        rw [hf, hf] at hnext
        exact ih.tail hnext.symm
    have hback : ∀ n k, n < k → f n = f k → False := by
      intro n k hlt hnk
      rcases Nat.exists_eq_add_of_lt hlt with ⟨d, rfl⟩
      have hcycle := hlater n d
      rw [← hnk] at hcycle
      exact hnone ⟨f n, hmem n, hcycle⟩
    rcases Nat.lt_or_gt_of_ne hne with hlt | hgt
    · exact hback i j hlt hsame
    · exact hback j i hgt hsame.symm

/-- Every turn leads upwards, and none above `limit`. -/
theorem ends_of_lt {step : Nat → Option Nat} {limit : Nat}
    (h : ∀ a b, a ≤ limit → step a = some b → a < b ∧ b ≤ limit) {a : Nat} (ha : a ≤ limit) : Ends step a := by
  generalize hd : limit - a = d
  induction d using Nat.strong_induction_on generalizing a with
  | _ d ih =>
    cases hstep : step a with
    | none => exact ⟨1, by simp [visit, hstep]⟩
    | some b =>
      have hb := h a b ha hstep
      exact ends_of_leads hstep (ih (limit - b) (by omega) hb.2 rfl)

end Walk
