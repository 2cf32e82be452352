import Mathlib.Data.List.Basic
import Mathlib.Tactic.Common

/-!
# Ranges of addresses laid end to end

An extent is a range `[start, start + size)`. `Extent.EndToEnd a xs e` says that the extents `xs`, in
order, tile the addresses from `a` to `e` without gap or overlap. That one statement gives the order
of the extents and that no two of them meet (`EndToEnd.pairwise_before`, `EndToEnd.pairwise_apart`).
-/

/-- The addresses `start`, …, `start + size - 1`. -/
structure Extent where
  start : Nat
  size : Nat

namespace Extent

/-- The first address after the extent. -/
def fin (x : Extent) : Nat := x.start + x.size

/-- The extents have no address in common. -/
def Apart (x y : Extent) : Prop := x.fin ≤ y.start ∨ y.fin ≤ x.start

/-- The extents `xs` lie one after the other, from `a` up to `e`. -/
def EndToEnd : Nat → List Extent → Nat → Prop
  | a, [], e => a = e
  | a, x :: xs, e => x.start = a ∧ EndToEnd x.fin xs e

theorem EndToEnd.append {a m e : Nat} {xs ys : List Extent} (h : EndToEnd a xs m)
    (h' : EndToEnd m ys e) : EndToEnd a (xs ++ ys) e := by
  induction xs generalizing a with
  | nil =>
    have ham : a = m := h
    rw [List.nil_append, ham]
    exact h'
  | cons x xs ih => exact ⟨h.1, ih h.2⟩

theorem endToEnd_append {a e : Nat} {xs ys : List Extent} :
    EndToEnd a (xs ++ ys) e ↔ ∃ m, EndToEnd a xs m ∧ EndToEnd m ys e := by
  constructor
  · intro h
    induction xs generalizing a with
    | nil => exact ⟨a, rfl, h⟩
    | cons x xs ih =>
      obtain ⟨m, hxs, hys⟩ := ih h.2
      exact ⟨m, ⟨h.1, hxs⟩, hys⟩
  · rintro ⟨m, hxs, hys⟩
    exact hxs.append hys

/-- What is laid from `a` to `e` stays between them. -/
theorem EndToEnd.bounds {a e : Nat} {xs : List Extent} (h : EndToEnd a xs e) :
    a ≤ e ∧ ∀ x ∈ xs, a ≤ x.start ∧ x.fin ≤ e := by
  induction xs generalizing a with
  | nil =>
    have hae : a = e := h
    exact ⟨Nat.le_of_eq hae, fun x hx => by cases hx⟩
  | cons x xs ih =>
    rcases h with ⟨hstart, hrest⟩
    rcases ih hrest with ⟨hle, hall⟩
    unfold fin at hle
    refine ⟨by omega, ?_⟩
    intro y hy
    rcases List.mem_cons.mp hy with rfl | hy
    · exact ⟨by omega, hle⟩
    · rcases hall y hy with ⟨hlo, hhi⟩
      unfold fin at hlo
      exact ⟨by omega, hhi⟩

/-- Each extent ends at or before the start of every later one. -/
theorem EndToEnd.pairwise_before {a e : Nat} {xs : List Extent} (h : EndToEnd a xs e) :
    xs.Pairwise fun x y => x.fin ≤ y.start := by
  induction xs generalizing a with
  | nil => exact List.Pairwise.nil
  | cons x xs ih => exact List.Pairwise.cons (fun y hy => (h.2.bounds.2 y hy).1) (ih h.2)

theorem EndToEnd.pairwise_apart {a e : Nat} {xs : List Extent} (h : EndToEnd a xs e) :
    xs.Pairwise Apart :=
  h.pairwise_before.imp Or.inl

/-- Tilings of consecutive ranges, put together. -/
theorem EndToEnd.flatMap {α : Type*} {f : α → List Extent} {g : α → Extent} {a e : Nat} {xs : List α}
    (h : EndToEnd a (xs.map g) e) (hf : ∀ x ∈ xs, EndToEnd (g x).start (f x) (g x).fin) :
    EndToEnd a (xs.flatMap f) e := by
  induction xs generalizing a with
  | nil => exact h
  | cons x xs ih =>
    rcases h with ⟨hstart, hrest⟩
    rw [List.flatMap_cons, ← hstart]
    exact (hf x List.mem_cons_self).append
      (ih hrest fun y hy => hf y (List.mem_cons_of_mem _ hy))

end Extent
