import Mathlib.Data.List.Induction
import Mathlib.Data.List.Nodup
import Mathlib.Tactic.Common

/-!
# Trees of named nodes, kept as a list

A tree is the list of its nodes in the order they were created, each with its path from the root, the
root being the node with the empty path. The children of a directory are the nodes whose path is one
name longer than its own, in that order.

* **`WellFormed`** — no two nodes have the same path, and each node but the root lies in a directory
  of the tree.
* **`reaches_iff`** — in a well-formed tree, walking down by the names `xs` from a node leads to the
  node whose path is longer by `xs`, and to no other one.
* **`WellFormed.snoc`** — a node added to a directory of the tree keeps it well formed.
-/

namespace PathTree

variable {α β : Type*}

/-- A node: its path, whether it is a directory, and what the tree holds there. -/
structure Node (α β : Type*) where
  path : List α
  dir : Bool
  val : β

/-- `c` lies directly under the path `p`. -/
def Under (p : List α) (c : Node α β) : Prop := c.path ≠ [] ∧ c.path.dropLast = p

structure WellFormed (t : List (Node α β)) : Prop where
  distinct : (t.map Node.path).Nodup
  closed : ∀ n ∈ t, n.path ≠ [] → ∃ d ∈ t, d.dir = true ∧ d.path = n.path.dropLast

theorem WellFormed.eq_of_path {t : List (Node α β)} (h : WellFormed t) {n m : Node α β} (hn : n ∈ t)
    (hm : m ∈ t) (hpath : n.path = m.path) : n = m :=
  List.inj_on_of_nodup_map h.distinct hn hm hpath

/-- Every initial part of a node's path is the path of a directory. -/
theorem WellFormed.prefix_dir {t : List (Node α β)} (h : WellFormed t) {p : List α} :
    ∀ {xs : List α} {m : Node α β}, m ∈ t → xs ≠ [] → m.path = p ++ xs →
      ∃ d ∈ t, d.dir = true ∧ d.path = p := by
  intro xs
  induction xs using List.reverseRecOn with
  | nil => exact fun _ hne => absurd rfl hne
  | append_singleton xs x ih =>
    intro m hm _ hpath
    have hne : m.path ≠ [] := by
      rw [hpath]
      simp
    rcases h.closed m hm hne with ⟨d, hd, hdir, hparent⟩
    rw [hpath, ← List.append_assoc, List.dropLast_concat] at hparent
    by_cases hlast : xs = []
    · subst hlast
      exact ⟨d, hd, hdir, by rw [hparent, List.append_nil]⟩
    · exact ih hd hlast hparent

/-- The tree of one directory, the root. -/
theorem wellFormed_root (val : β) : WellFormed [(⟨[], true, val⟩ : Node α β)] where
  distinct := List.nodup_singleton _
  closed n hn hne := by
    rw [List.mem_singleton] at hn
    rw [hn] at hne
    exact absurd rfl hne

/-- A new node, under a directory of the tree. -/
theorem WellFormed.snoc {t : List (Node α β)} (h : WellFormed t) {n : Node α β}
    (hnew : n.path ∉ t.map Node.path)
    (hparent : ∃ d ∈ t, d.dir = true ∧ d.path = n.path.dropLast) : WellFormed (t ++ [n]) where
  distinct := by
    rw [List.map_append, List.map_singleton, List.nodup_append]
    refine ⟨h.distinct, List.nodup_singleton _, ?_⟩
    intro p hp q hq heq
    rw [List.mem_singleton] at hq
    exact hnew (hq ▸ heq ▸ hp)
  closed m hm hne := by
    rcases List.mem_append.mp hm with hold | hlast
    · rcases h.closed m hold hne with ⟨d, hd, hdir⟩
      exact ⟨d, List.mem_append_left _ hd, hdir⟩
    · rw [List.mem_singleton] at hlast
      rcases hparent with ⟨d, hd, hdir⟩
      rw [hlast]
      exact ⟨d, List.mem_append_left _ hd, hdir⟩

variable [DecidableEq α]

instance (p : List α) (c : Node α β) : Decidable (Under p c) :=
  inferInstanceAs (Decidable (_ ∧ _))

/-- The nodes directly under the path `p`, in order. -/
def children (t : List (Node α β)) (p : List α) : List (Node α β) := t.filter fun c => Under p c

/-- Walking from `n` down to `m`, at each directory to a child with the next name. -/
inductive Reaches (t : List (Node α β)) : Node α β → List α → Node α β → Prop where
  | nil (n : Node α β) : Reaches t n [] n
  | cons {n c m : Node α β} {x : α} {xs : List α} (hdir : n.dir = true)
      (hc : c ∈ children t n.path) (hx : c.path.getLast? = some x) (hrest : Reaches t c xs m) :
      Reaches t n (x :: xs) m

theorem mem_children {t : List (Node α β)} {p : List α} {c : Node α β} :
    c ∈ children t p ↔ c ∈ t ∧ c.path ≠ [] ∧ c.path.dropLast = p := by
  unfold children
  rw [List.mem_filter, decide_eq_true_iff]
  rfl

/-- A child with the name `x` has the path of its directory and `x`. -/
theorem path_eq_of_child {t : List (Node α β)} {p : List α} {c : Node α β} {x : α}
    (hc : c ∈ children t p) (hx : c.path.getLast? = some x) : c.path = p ++ [x] := by
  rcases mem_children.mp hc with ⟨_, _, hparent⟩
  rw [← hparent]
  exact (List.dropLast_append_getLast? x hx).symm

theorem child_of_path_eq {t : List (Node α β)} {p : List α} {c : Node α β} {x : α} (hc : c ∈ t)
    (hpath : c.path = p ++ [x]) : c ∈ children t p ∧ c.path.getLast? = some x := by
  refine ⟨mem_children.mpr ⟨hc, ?_, ?_⟩, ?_⟩
  · rw [hpath]
    exact List.append_ne_nil_of_right_ne_nil p (List.cons_ne_nil x [])
  · rw [hpath, List.dropLast_concat]
  · rw [hpath, List.getLast?_concat]

theorem Reaches.path {t : List (Node α β)} {n m : Node α β} {xs : List α} (h : Reaches t n xs m)
    (hn : n ∈ t) : m ∈ t ∧ m.path = n.path ++ xs := by
  induction h with
  | nil n => exact ⟨hn, (List.append_nil _).symm⟩
  | @cons n c m x xs _ hc hx _ ih =>
    rcases ih (mem_children.mp hc).1 with ⟨hm, hpath⟩
    refine ⟨hm, ?_⟩
    rw [hpath, path_eq_of_child hc hx, List.append_assoc]
    rfl

/-- Every node is reached by the names of its path. -/
theorem WellFormed.reaches {t : List (Node α β)} (h : WellFormed t) {xs : List α} {n m : Node α β}
    (hn : n ∈ t) (hm : m ∈ t) (hpath : m.path = n.path ++ xs) : Reaches t n xs m := by
  induction xs generalizing n with
  | nil =>
    rw [List.append_nil] at hpath
    rw [h.eq_of_path hm hn hpath]
    exact Reaches.nil n
  | cons x xs ih =>
    rcases h.prefix_dir hm (List.cons_ne_nil x xs) hpath with ⟨d, hd, hdir, hdpath⟩
    obtain rfl := h.eq_of_path hd hn hdpath
    -- the next node down: `m` itself, or the directory on the way to it
    have hstep : ∃ c ∈ t, c.path = d.path ++ [x] := by
      by_cases hlast : xs = []
      · subst hlast
        exact ⟨m, hm, hpath⟩
      · have hsplit : m.path = (d.path ++ [x]) ++ xs := by
          rw [hpath, List.append_assoc]
          rfl
        rcases h.prefix_dir hm hlast hsplit with ⟨c, hc, _, hcpath⟩
        exact ⟨c, hc, hcpath⟩
    rcases hstep with ⟨c, hc, hcpath⟩
    rcases child_of_path_eq hc hcpath with ⟨hchild, hname⟩
    refine Reaches.cons hdir hchild hname (ih hc ?_)
    rw [hpath, hcpath, List.append_assoc]
    rfl

/-- **Walks in a well-formed tree** lead from a node to the one whose path is longer by the names
taken. -/
theorem WellFormed.reaches_iff {t : List (Node α β)} (h : WellFormed t) {xs : List α}
    {n m : Node α β} (hn : n ∈ t) : Reaches t n xs m ↔ m ∈ t ∧ m.path = n.path ++ xs :=
  ⟨fun hreach => hreach.path hn, fun hm => h.reaches hn hm.1 hm.2⟩

/-- The children after a node was added: the new one is a child of its directory alone. -/
theorem children_snoc (t : List (Node α β)) (n : Node α β) (p : List α) :
    children (t ++ [n]) p = children t p ++ if Under p n then [n] else [] := by
  unfold children
  rw [List.filter_append, List.filter_singleton]
  by_cases hunder : Under p n
  · simp [hunder]
  · simp [hunder]

end PathTree
