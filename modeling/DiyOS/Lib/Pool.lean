import Mathlib.Data.List.Pairwise
import Mathlib.Data.Set.Basic
import Mathlib.Tactic.Common

/-!
# Pools that hand out at most one resource of each group

A pool hands out resources `α`, some of which are **reserved** and never leave it. The resources
are partitioned by `group : α → γ`, and the pool only gives out a resource whose group is **idle**:
none of it is reserved or handed out. The groups are the unit of bookkeeping, so a pool that keeps
to this rule never gives out a resource twice (`Exclusive`), and which groups are idle can be
followed through every step (`idle_take_iff`, `idle_give_iff`).
-/

/-- The resources a pool has out, and those it never hands out. -/
structure Pool (α : Type*) where
  reserved : Set α
  out : List α

namespace Pool

variable {α γ : Type*} (group : α → γ)

/-- No resource of the group `g` is reserved or handed out. -/
def Idle (p : Pool α) (g : γ) : Prop :=
  ∀ x, group x = g → x ∉ p.reserved ∧ x ∉ p.out

/-- Each group has one owner at most, and a reserved one has none. -/
structure Exclusive (p : Pool α) : Prop where
  unreserved : ∀ x ∈ p.out, ∀ y ∈ p.reserved, group x ≠ group y
  single : p.out.Pairwise fun x y => group x ≠ group y

/-- Hand out `x`. -/
def take (p : Pool α) (x : α) : Pool α := { p with out := x :: p.out }

/-- Take `x` back. -/
def give [DecidableEq α] (p : Pool α) (x : α) : Pool α := { p with out := p.out.erase x }

variable {group} {p : Pool α} {x : α} {g : γ}

theorem Exclusive.nil (reserved : Set α) : Exclusive group ⟨reserved, []⟩ := by
  constructor
  · intro x hx
    cases hx
  · exact List.Pairwise.nil

theorem Exclusive.nodup (h : Exclusive group p) : p.out.Nodup :=
  h.single.imp fun hne heq => hne (congrArg group heq)

/-- Two owners of one group are the same. -/
theorem Exclusive.eq_of_group_eq (h : Exclusive group p) {y : α} (hx : x ∈ p.out) (hy : y ∈ p.out)
    (heq : group x = group y) : x = y := by
  by_contra hne
  have hsymm : Std.Symm fun x y : α => group x ≠ group y := ⟨fun _ _ hxy => hxy.symm⟩
  exact h.single.forall hx hy hne heq

/-- Handing out a resource of an idle group keeps every group to one owner. -/
theorem Exclusive.take (h : Exclusive group p) (hidle : Idle group p (group x)) :
    Exclusive group (p.take x) := by
  constructor
  · intro y hy r hr heq
    rcases List.mem_cons.mp hy with rfl | hy
    · exact (hidle r heq.symm).1 hr
    · exact h.unreserved y hy r hr heq
  · refine List.Pairwise.cons ?_ h.single
    intro y hy heq
    exact (hidle y heq.symm).2 hy

theorem Exclusive.give [DecidableEq α] (h : Exclusive group p) : Exclusive group (p.give x) := by
  constructor
  · intro y hy
    exact h.unreserved y (List.mem_of_mem_erase hy)
  · exact h.single.sublist List.erase_sublist

/-- A group is idle after an element of another group is taken, and only then. -/
theorem idle_take_iff :
    Idle group (p.take x) g ↔ Idle group p g ∧ g ≠ group x := by
  constructor
  · intro h
    refine ⟨fun y hy => ⟨(h y hy).1, fun hout => (h y hy).2 (List.mem_cons_of_mem _ hout)⟩, ?_⟩
    intro heq
    exact (h x heq.symm).2 List.mem_cons_self
  · rintro ⟨h, hne⟩ y hy
    refine ⟨(h y hy).1, ?_⟩
    intro hout
    rcases List.mem_cons.mp hout with rfl | hout
    · exact hne hy.symm
    · exact (h y hy).2 hout

/-- Taking a resource back makes its group idle, since it was the only one of the group out. -/
theorem idle_give_iff [DecidableEq α] (hex : Exclusive group p) (hx : x ∈ p.out) :
    Idle group (p.give x) g ↔ Idle group p g ∨ g = group x := by
  constructor
  · intro h
    by_cases hg : g = group x
    · exact Or.inr hg
    · refine Or.inl fun y hy => ⟨(h y hy).1, fun hout => (h y hy).2 ?_⟩
      have hne : y ≠ x := fun heq => hg (by rw [← hy, heq])
      exact (List.mem_erase_of_ne hne).mpr hout
  · rintro (h | rfl) y hy
    · exact ⟨(h y hy).1, fun hout => (h y hy).2 (List.mem_of_mem_erase hout)⟩
    · refine ⟨fun hres => hex.unreserved x hx y hres hy.symm, ?_⟩
      intro hout
      have hmem : y ∈ p.out := List.mem_of_mem_erase hout
      have heq : y = x := hex.eq_of_group_eq hmem hx hy
      subst heq
      exact (hex.nodup.not_mem_erase) hout

end Pool
