import Mathlib.Data.List.Induction
import Mathlib.Tactic.Common

/-!
# Runs of a labelled transition system

A system is a relation `step : σ → ε → σ → Prop`: the state before, the event, the state after.
A **run** from `s₀` is a finite chain of transitions, recorded with both of their states so that a
property of single transitions (`∀ τ ∈ tr, P τ`) can be stated of a whole run.

* **`Run.invariant`** — a property of the first state that every step preserves holds of the last.
* **`Run.invariant_of_all`** — the same where the steps preserve it only while every transition
  meets a condition.
* **`Run.of_append`** — a run can be cut between any two of its transitions.
* **`Run.reaches_of_mem`** — the state before each recorded transition ends a run of its own, so an
  invariant holds there too (`Run.pre_invariant`).
* **`Run.all_iff_while`**, **`Run.all_iff`** — two properties of transitions that agree wherever an
  invariant holds agree over runs.
-/

/-- One step of a run: the state it starts from, its event, and the state it leaves. -/
structure Transition (σ ε : Type*) where
  pre : σ
  event : ε
  post : σ

section

variable {σ ε : Type*} {step : σ → ε → σ → Prop} {s₀ : σ}

/-- `Run step s₀ tr s`: the transitions `tr`, in order, lead from `s₀` to `s`. -/
inductive Run (step : σ → ε → σ → Prop) (s₀ : σ) : List (Transition σ ε) → σ → Prop where
  | nil : Run step s₀ [] s₀
  | snoc {tr : List (Transition σ ε)} {s t : σ} {e : ε}
      (hrun : Run step s₀ tr s) (hstep : step s e t) : Run step s₀ (tr ++ [⟨s, e, t⟩]) t

namespace Run

/-- **The rule for invariants**: what holds at the start and is kept by each step holds of every state that is
reached. -/
theorem invariant {I : σ → Prop} (h0 : I s₀) (hpres : ∀ s e t, I s → step s e t → I t)
    {tr : List (Transition σ ε)} {s : σ} (h : Run step s₀ tr s) : I s := by
  induction h with
  | nil => exact h0
  | snoc _ hstep ih => exact hpres _ _ _ ih hstep

/-- An invariant that a step preserves only when the transition meets `C` holds at the end of every
run all of whose transitions meet `C`. -/
theorem invariant_of_all {I : σ → Prop} {C : Transition σ ε → Prop} (h0 : I s₀)
    (hpres : ∀ s e t, I s → step s e t → C ⟨s, e, t⟩ → I t)
    {tr : List (Transition σ ε)} {s : σ} (h : Run step s₀ tr s) (hall : ∀ τ ∈ tr, C τ) : I s := by
  induction h with
  | nil => exact h0
  | snoc _ hstep ih =>
    have hinit := ih fun τ hτ => hall τ (List.mem_append_left _ hτ)
    exact hpres _ _ _ hinit hstep (hall _ (by simp))

/-- If each step that meets `C` keeps `I` and has `D`, then all the steps of a run that meets `C` have `D`. -/
theorem all_of_all {I : σ → Prop} {C D : Transition σ ε → Prop} (h0 : I s₀)
    (hpres : ∀ s e t, I s → step s e t → C ⟨s, e, t⟩ → I t ∧ D ⟨s, e, t⟩)
    {tr : List (Transition σ ε)} {s : σ} (h : Run step s₀ tr s) (hall : ∀ τ ∈ tr, C τ) :
    ∀ τ ∈ tr, D τ := by
  induction h with
  | nil => exact fun _ hτ => nomatch hτ
  | @snoc tr s t e hrun hstep ih =>
    have hbefore : ∀ τ ∈ tr, C τ := fun τ hτ => hall τ (List.mem_append_left _ hτ)
    have hinit : I s := hrun.invariant_of_all h0 (fun s e t hI hst hC => (hpres s e t hI hst hC).1) hbefore
    intro τ hτ
    rcases List.mem_append.mp hτ with hin | hlast
    · exact ih hbefore τ hin
    · rw [List.mem_singleton.mp hlast]
      exact (hpres s e t hinit hstep (hall _ (by simp))).2

theorem nil_inv {s : σ} (h : Run step s₀ [] s) : s = s₀ := by
  generalize hl : ([] : List (Transition σ ε)) = l at h
  cases h with
  | nil => rfl
  | snoc hrun hstep => exact absurd hl.symm (List.append_ne_nil_of_right_ne_nil _ (List.cons_ne_nil _ _))

theorem snoc_inv {tr : List (Transition σ ε)} {τ : Transition σ ε} {s : σ} (h : Run step s₀ (tr ++ [τ]) s) :
    Run step s₀ tr τ.pre ∧ step τ.pre τ.event τ.post ∧ s = τ.post := by
  generalize hl : tr ++ [τ] = l at h
  cases h with
  | nil => exact absurd hl (List.append_ne_nil_of_right_ne_nil _ (List.cons_ne_nil _ _))
  | snoc hrun hstep =>
    obtain ⟨rfl, hlast⟩ := List.append_inj' hl rfl
    obtain rfl := List.singleton_inj.mp hlast
    exact ⟨hrun, hstep, rfl⟩

/-- A run can be cut between any two of its transitions. -/
theorem of_append {tr tr' : List (Transition σ ε)} {s : σ} (h : Run step s₀ (tr ++ tr') s) :
    ∃ t, Run step s₀ tr t ∧ Run step t tr' s := by
  induction tr' using List.reverseRecOn generalizing s with
  | nil => exact ⟨s, List.append_nil tr ▸ h, .nil⟩
  | append_singleton tr' τ ih =>
    rw [← List.append_assoc] at h
    obtain ⟨hrun, hstep, rfl⟩ := h.snoc_inv
    obtain ⟨t, hfirst, hsecond⟩ := ih hrun
    exact ⟨t, hfirst, hsecond.snoc hstep⟩

theorem cons_inv {τ : Transition σ ε} {tr : List (Transition σ ε)} {s : σ} (h : Run step s₀ (τ :: tr) s) :
    τ.pre = s₀ ∧ step τ.pre τ.event τ.post ∧ Run step τ.post tr s := by
  obtain ⟨t, hfirst, hrest⟩ := @of_append _ _ _ _ [τ] tr s h
  obtain ⟨hnil, hstep, rfl⟩ := @snoc_inv _ _ _ _ [] τ t hfirst
  exact ⟨hnil.nil_inv, hstep, hrest⟩

/-- Every transition of a run starts where an initial part of the run ends, and is a step. -/
theorem reaches_of_mem {tr : List (Transition σ ε)} {s : σ} (h : Run step s₀ tr s)
    {τ : Transition σ ε} (hτ : τ ∈ tr) :
    ∃ before after, tr = before ++ τ :: after ∧ Run step s₀ before τ.pre
      ∧ step τ.pre τ.event τ.post := by
  induction h with
  | nil => cases hτ
  | @snoc tr s t e hrun hstep ih =>
    rcases List.mem_append.mp hτ with hin | hlast
    · rcases ih hin with ⟨before, after, heq, hpre, hst⟩
      exact ⟨before, after ++ [⟨s, e, t⟩], by rw [heq]; simp, hpre, hst⟩
    · rw [List.mem_singleton] at hlast
      subst hlast
      exact ⟨tr, [], rfl, hrun, hstep⟩

theorem pre_invariant {I : σ → Prop} (h0 : I s₀) (hpres : ∀ s e t, I s → step s e t → I t)
    {tr : List (Transition σ ε)} {s : σ} (h : Run step s₀ tr s)
    {τ : Transition σ ε} (hτ : τ ∈ tr) : I τ.pre ∧ step τ.pre τ.event τ.post := by
  rcases h.reaches_of_mem hτ with ⟨_, _, _, hpre, hst⟩
  exact ⟨hpre.invariant h0 hpres, hst⟩

/-- Two properties of transitions that are equivalent from every state of an invariant, which the
second one preserves, are equivalent over whole runs. -/
theorem all_iff_while {I : σ → Prop} {P Q : Transition σ ε → Prop} (h0 : I s₀)
    (hiff : ∀ s e t, I s → step s e t → (P ⟨s, e, t⟩ ↔ Q ⟨s, e, t⟩))
    (hpres : ∀ s e t, I s → step s e t → Q ⟨s, e, t⟩ → I t)
    {tr : List (Transition σ ε)} {s : σ} (h : Run step s₀ tr s) :
    (∀ τ ∈ tr, P τ) ↔ (∀ τ ∈ tr, Q τ) := by
  induction h with
  | nil => exact iff_of_true (List.forall_mem_nil _) (List.forall_mem_nil _)
  | @snoc tr s t e hrun hstep ih =>
    rw [List.forall_mem_append, List.forall_mem_append, List.forall_mem_singleton,
      List.forall_mem_singleton, ih]
    -- while the earlier transitions meet the condition, the invariant holds before the last one
    refine and_congr_right fun hall => ?_
    exact hiff s e t (hrun.invariant_of_all h0 hpres hall) hstep

theorem all_iff {I : σ → Prop} {P Q : Transition σ ε → Prop} (h0 : I s₀)
    (hpres : ∀ s e t, I s → step s e t → I t)
    (hiff : ∀ s e t, I s → step s e t → (P ⟨s, e, t⟩ ↔ Q ⟨s, e, t⟩))
    {tr : List (Transition σ ε)} {s : σ} (h : Run step s₀ tr s) :
    (∀ τ ∈ tr, P τ) ↔ (∀ τ ∈ tr, Q τ) :=
  h.all_iff_while h0 hiff fun s e t hI hstep _ => hpres s e t hI hstep

end Run

/-- What is observed of a run with one more transition. -/
theorem List.filterMap_snoc {α β : Type*} (f : α → Option β) (l : List α) (a : α) :
    (l ++ [a]).filterMap f = l.filterMap f ++ (f a).toList := by
  rw [List.filterMap_append]
  cases h : f a with
  | none => simp [h]
  | some b => simp [h]

end
