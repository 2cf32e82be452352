import Mathlib.Data.List.Induction
import Mathlib.Data.List.Basic
import Mathlib.Tactic.Common

/-!
# Trees given by a list of paths

A list of paths in which a path may be repeated: the tree has a node for each place of the list, and a
node hangs under the first place that has the path of its directory.

* **`children`** — the places directly under a path, in order.
* **`first`** — the first place with a path.
* **`find?_children`** — the first child with a name is the first place with the longer path.
* **`prefix_of_parent`** — what holds of the directory of each path holds of all that are above it.
-/

namespace PathList

variable {α : Type*} {ps : List (List α)} {p q : List α} {s : α} {i : ℕ}

/-- `q` lies directly under the path `p`. -/
def Under (p q : List α) : Prop := q ≠ [] ∧ q.dropLast = p

theorem not_under_self (p : List α) : ¬ Under p p := by
  intro h
  have hlength := congrArg List.length h.2
  have hpos := List.length_pos_iff.mpr h.1
  rw [List.length_dropLast] at hlength
  omega

/-- A path that ends with the name `s`. -/
theorem under_and_name_iff : Under p q ∧ q.getLast? = some s ↔ q = p ++ [s] := by
  constructor
  · intro h
    rw [← h.1.2]
    exact (List.dropLast_append_getLast? s h.2).symm
  · intro h
    subst h
    exact ⟨⟨by simp, List.dropLast_concat⟩, List.getLast?_concat⟩

/-- What holds of the directory of each path, and of no path that is not there but the root, holds of
every path above one that is there. -/
theorem prefix_of_parent {D : List α → Prop} (hparent : ∀ q ∈ ps, D q.dropLast)
    (hmem : ∀ p, D p → p = [] ∨ p ∈ ps) (hne : q ≠ []) (h : p ++ q ∈ ps) : D p := by
  induction q using List.reverseRecOn with
  | nil => exact absurd rfl hne
  | append_singleton q x ih =>
    have hdir := hparent _ h
    rw [← List.append_assoc, List.dropLast_concat] at hdir
    by_cases hq : q = []
    · subst hq
      rw [List.append_nil] at hdir
      exact hdir
    · rcases hmem _ hdir with hnil | hin
      · exact absurd (List.append_eq_nil_iff.mp hnil).2 hq
      · exact ih hq hin

variable [DecidableEq α]

instance (p q : List α) : Decidable (Under p q) :=
  inferInstanceAs (Decidable (_ ∧ _))

/-- The places directly under the path `p`. -/
def children (ps : List (List α)) (p : List α) : List ℕ := ps.findIdxs fun q => Under p q

/-- The children of a path are the places of the paths right under it. -/
theorem mem_children : i ∈ children ps p ↔ ∃ q, ps[i]? = some q ∧ Under p q := by
  unfold children
  rw [List.mem_findIdxs_iff_exists_getElem_pos]
  constructor
  · rintro ⟨hi, hunder⟩
    exact ⟨ps[i], List.getElem?_eq_getElem hi, of_decide_eq_true hunder⟩
  · rintro ⟨q, hq, hunder⟩
    rcases List.getElem?_eq_some_iff.mp hq with ⟨hi, rfl⟩
    exact ⟨hi, decide_eq_true hunder⟩

theorem nodup_children (ps : List (List α)) (p : List α) : (children ps p).Nodup :=
  List.nodup_findIdxs

/-- The children after a path was added at the end. -/
theorem children_snoc (ps : List (List α)) (p q : List α) :
    children (ps ++ [q]) p = children ps p ++ if Under p q then [ps.length] else [] := by
  unfold children
  rw [List.findIdxs_append, List.findIdxs_singleton, Nat.zero_add]
  by_cases hunder : Under p q
  · simp [hunder]
  · simp [hunder]

/-- The first place with the path `p`. -/
def first (ps : List (List α)) (p : List α) : Option ℕ := ps.findIdx? fun q => q = p

theorem getElem?_of_first (h : first ps p = some i) : ps[i]? = some p := by
  rcases List.findIdx?_eq_some_iff_getElem.mp h with ⟨hi, hpath, _⟩
  rw [List.getElem?_eq_getElem hi, of_decide_eq_true hpath]

theorem exists_first (h : p ∈ ps) : ∃ i, first ps p = some i := by
  apply Option.isSome_iff_exists.mp
  exact List.findIdx?_isSome.trans (List.any_eq_true.mpr ⟨p, h, decide_eq_true rfl⟩)

/-- A path that is added behind the others is found there if it was in no place before. -/
theorem first_snoc (ps : List (List α)) (p q : List α) :
    first (ps ++ [q]) p = (first ps p).or (if q = p then some ps.length else none) := by
  unfold first
  rw [List.findIdx?_append]
  by_cases heq : q = p
  · simp [heq]
  · simp [heq]

/-- **The first child with a name** is the first place with the longer path. -/
theorem find?_children {P : ℕ → Bool}
    (hP : ∀ i q, ps[i]? = some q → Under p q → (P i = true ↔ q.getLast? = some s)) :
    (children ps p).find? P = first ps (p ++ [s]) := by
  induction ps using List.reverseRecOn with
  | nil => rfl
  | append_singleton ps q ih =>
    have hbefore : (children ps p).find? P = first ps (p ++ [s]) := by
      apply ih
      intro i u hi
      exact hP i u (List.getElem?_append_left (List.getElem?_eq_some_iff.mp hi).1 ▸ hi)
    have hlast := hP ps.length q List.getElem?_concat_length
    rw [children_snoc, List.find?_append, hbefore, first_snoc]
    by_cases hunder : Under p q
    · have hname := under_and_name_iff (p := p) (q := q) (s := s)
      rw [if_pos hunder, List.find?_singleton]
      simp only [hlast hunder, ← hname, hunder, true_and]
    · have hother : q ≠ p ++ [s] := fun heq => hunder (under_and_name_iff.mpr heq).1
      rw [if_neg hunder, if_neg hother]
      rfl

/-- Nothing lies under a path that is not there. -/
theorem children_eq_nil {D : List α → Prop} (hparent : ∀ q ∈ ps, D q.dropLast)
    (hmem : ∀ p, D p → p = [] ∨ p ∈ ps) (hne : p ≠ []) (hnot : p ∉ ps) : children ps p = [] := by
  apply List.eq_nil_iff_forall_not_mem.mpr
  intro i hi
  rcases mem_children.mp hi with ⟨q, hq, hunder⟩
  have hdir := hparent q (List.mem_of_getElem? hq)
  rw [hunder.2] at hdir
  rcases hmem p hdir with hnil | hin
  · exact hne hnil
  · exact hnot hin

end PathList
