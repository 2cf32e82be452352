import Mathlib.Data.List.Basic
import Mathlib.Tactic.Common

/-!
# Enumeration with a cursor

A call `next` gets the entry it returned before, or nothing at first, and returns the entry after it or
nothing at the end. The entry holds the position of the call.

* **`Enumerates`** — the entries that the calls return, up to the one that returns nothing.
* **`enumerates_of_index`** — calls that go through a list by index return an entry for each of its
  elements, in order.
* **`enumerates_or_fails`** — calls whose position stays below a bound come to an end.
-/

section

variable {α δ ε : Type*}

/-- From the argument `d` on, the calls return the entries `ds` and then nothing. -/
inductive Enumerates (next : Option δ → Except ε (Option δ)) : Option δ → List δ → Prop where
  | nil {d : Option δ} (hend : next d = .ok none) : Enumerates next d []
  | cons {d : Option δ} {e : δ} {ds : List δ} (hnext : next d = .ok (some e))
      (hrest : Enumerates next (some e) ds) : Enumerates next d (e :: ds)

/-- `position d` is the index that the call with `d` looks at. -/
theorem enumerates_of_index {next : Option δ → Except ε (Option δ)} {position : Option δ → Nat}
    {r : δ → α → Prop} {l : List α}
    (hnext : ∀ d a, l[position d]? = some a →
      ∃ e, next d = .ok (some e) ∧ position (some e) = position d + 1 ∧ r e a)
    (hend : ∀ d, l[position d]? = none → next d = .ok none) (d : Option δ) :
    ∃ ds, Enumerates next d ds ∧ List.Forall₂ r ds (l.drop (position d)) := by
  generalize hrest : l.drop (position d) = rest
  induction rest generalizing d with
  | nil =>
    have hnone : l[position d]? = none := by
      rw [List.getElem?_eq_none_iff, ← List.drop_eq_nil_iff]
      exact hrest
    exact ⟨[], Enumerates.nil (hend d hnone), List.Forall₂.nil⟩
  | cons a rest ih =>
    have hsome : l[position d]? = some a := by
      rw [← List.head?_drop, hrest]
      rfl
    obtain ⟨e, hcall, hposition, hr⟩ := hnext d a hsome
    have htail : l.drop (position (some e)) = rest := by
      rw [hposition, ← List.drop_drop, hrest]
      rfl
    obtain ⟨ds, hds, hall⟩ := ih (some e) htail
    exact ⟨e :: ds, Enumerates.cons hcall hds, List.Forall₂.cons hr hall⟩

/-- Only the first call gets the argument. -/
theorem Enumerates.of_eq {next : Option δ → Except ε (Option δ)} {d d' : Option δ} {ds : List δ}
    (h : Enumerates next d ds) (heq : next d = next d') : Enumerates next d' ds := by
  cases h with
  | nil hend => exact Enumerates.nil (heq.symm.trans hend)
  | cons hnext hrest => exact Enumerates.cons (heq.symm.trans hnext) hrest

/-- From the argument `d` on, the calls come to one that fails with `err`. -/
inductive Fails (next : Option δ → Except ε (Option δ)) (err : ε) : Option δ → Prop where
  | here {d : Option δ} (hcall : next d = .error err) : Fails next err d
  | later {d : Option δ} {e : δ} (hnext : next d = .ok (some e)) (hrest : Fails next err (some e)) :
      Fails next err d

theorem Enumerates.not_fails {next : Option δ → Except ε (Option δ)} {err : ε} {d : Option δ} {ds : List δ}
    (h : Enumerates next d ds) : ¬ Fails next err d := by
  induction h with
  | nil hend =>
    intro hfails
    cases hfails with
    | here hcall => cases hend.symm.trans hcall
    | later hnext _ => cases hend.symm.trans hnext
  | cons hnext _ ih =>
    intro hfails
    cases hfails with
    | here hcall => cases hnext.symm.trans hcall
    | later hnext' hrest =>
      cases hnext.symm.trans hnext'
      exact ih hrest

/-- Where an entry is returned for positions below a bound only, the calls return all entries, or one of
them fails. -/
theorem enumerates_or_fails {next : Option δ → Except ε (Option δ)} {position : Option δ → Nat} {bound : Nat}
    (hnext : ∀ d e, next d = .ok (some e) → position (some e) = position d + 1 ∧ position d < bound)
    (d : Option δ) :
    (∃ ds, Enumerates next d ds ∧ ds.length ≤ bound - position d) ∨ ∃ err, Fails next err d := by
  generalize hrest : bound - position d = rest
  induction rest generalizing d with
  | zero =>
    cases hcall : next d with
    | error err => exact Or.inr ⟨err, Fails.here hcall⟩
    | ok r =>
      cases r with
      | none => exact Or.inl ⟨[], Enumerates.nil hcall, Nat.le_refl _⟩
      | some e => exact absurd (hnext d e hcall).2 (by omega)
  | succ rest ih =>
    cases hcall : next d with
    | error err => exact Or.inr ⟨err, Fails.here hcall⟩
    | ok r =>
      cases r with
      | none => exact Or.inl ⟨[], Enumerates.nil hcall, Nat.zero_le _⟩
      | some e =>
        have hposition := (hnext d e hcall).1
        rcases ih (some e) (by omega) with ⟨ds, hds, hle⟩ | ⟨err, herr⟩
        · exact Or.inl ⟨e :: ds, Enumerates.cons hcall hds, Nat.succ_le_succ hle⟩
        · exact Or.inr ⟨err, Fails.later hcall herr⟩

end
