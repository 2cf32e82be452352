import Mathlib.Data.List.Nodup
import Mathlib.Data.List.Pairwise
import Mathlib.Logic.Relation
import Mathlib.Tactic.Common

/-!
# Ordered forests, and their threading through pointers

A forest is a list of nodes in the order they were added, each of which has a parent added before it or
none. The children of a node stand in that order.

* **`not_ancestor_self`** — no node is its own ancestor.
* **`mem_ancestors`**, **`mem_preorder`** — what the walk up from a node, and the one down from it, meet;
  neither meets a node twice (`nodup_ancestors`, `nodup_preorder`), and the latter meets parents first
  (`parent_before`) and the children of its root in order (`filter_preorder`).
* **`Threaded`** — pointers to the parent, the first child and the next sibling hold a forest.
  `Threaded.add` says what has to be written for a new node.
-/

structure Forest (α : Type*) [DecidableEq α] where
  nodes : List α
  parent : α → Option α
  nodup : nodes.Nodup
  mem_of_parent : ∀ {c p}, parent c = some p → c ∈ nodes
  /-- A parent was added before its children. -/
  parent_lt : ∀ {c p}, parent c = some p → nodes.idxOf p < nodes.idxOf c

namespace Forest

variable {α : Type*} [DecidableEq α]

/-- No nodes. -/
def empty : Forest α where
  nodes := []
  parent _ := none
  nodup := List.nodup_nil
  mem_of_parent h := nomatch h
  parent_lt h := nomatch h

/-- One more node. -/
def add (F : Forest α) (x : α) (parent : Option α) (hx : x ∉ F.nodes)
    (hparent : ∀ p, parent = some p → p ∈ F.nodes) : Forest α where
  nodes := F.nodes ++ [x]
  parent := Function.update F.parent x parent
  nodup := List.nodup_append.mpr ⟨F.nodup, List.nodup_singleton x, by
    intro a ha b hb heq
    rw [List.mem_singleton] at hb
    exact hx (hb ▸ heq ▸ ha)⟩
  mem_of_parent := by
    intro c p h
    by_cases hc : c = x
    · exact List.mem_append_right _ (List.mem_singleton.mpr hc)
    · rw [Function.update_of_ne hc] at h
      exact List.mem_append_left _ (F.mem_of_parent h)
  parent_lt := by
    intro c p h
    by_cases hc : c = x
    · subst hc
      rw [Function.update_self] at h
      have hp := hparent p h
      rw [List.idxOf_append_of_mem hp, List.idxOf_append_of_notMem hx]
      exact Nat.lt_of_lt_of_le (List.idxOf_lt_length_of_mem hp) (Nat.le_add_right _ _)
    · rw [Function.update_of_ne hc] at h
      have hlt := F.parent_lt h
      have hmem := F.mem_of_parent h
      have hp : p ∈ F.nodes := List.idxOf_lt_length_iff.mp
        (Nat.lt_trans hlt (List.idxOf_lt_length_of_mem hmem))
      rw [List.idxOf_append_of_mem hp, List.idxOf_append_of_mem hmem]
      exact hlt

/-- `p` is the parent of `c`. -/
def Under (F : Forest α) (c p : α) : Prop := F.parent c = some p

/-- The children of `p`, in the order they were added. -/
def children (F : Forest α) (p : α) : List α := F.nodes.filter fun c => F.parent c = some p

section

variable (F : Forest α)

theorem mem_children {c p : α} : c ∈ F.children p ↔ F.Under c p := by
  unfold children Under
  rw [List.mem_filter, decide_eq_true_eq]
  exact ⟨fun h => h.2, fun h => ⟨F.mem_of_parent h, h⟩⟩

theorem nodup_children (p : α) : (F.children p).Nodup := F.nodup.filter _

theorem children_sublist (p : α) : (F.children p).Sublist F.nodes := List.filter_sublist

/-- Nodes have one parent. -/
theorem under_unique : Relator.RightUnique F.Under := fun _ _ _ h h' => Option.some.inj (h.symm.trans h')

theorem mem_of_under {c p : α} (h : F.Under c p) : p ∈ F.nodes :=
  List.idxOf_lt_length_iff.mp
    (Nat.lt_trans (F.parent_lt h) (List.idxOf_lt_length_of_mem (F.mem_of_parent h)))

/-- An ancestor was added before. -/
theorem idxOf_lt_of_ancestor {c p : α} (h : Relation.TransGen F.Under c p) :
    F.nodes.idxOf p < F.nodes.idxOf c := by
  induction h with
  | single hstep => exact F.parent_lt hstep
  | tail _ hstep ih => exact Nat.lt_trans (F.parent_lt hstep) ih

theorem not_ancestor_self (x : α) : ¬ Relation.TransGen F.Under x x :=
  fun h => Nat.lt_irrefl _ (F.idxOf_lt_of_ancestor h)

/-- What holds of a node when it holds of its children holds of all nodes. -/
theorem downward_induction {P : α → Prop} (h : ∀ x, (∀ c ∈ F.children x, P c) → P x) (x : α) : P x := by
  -- children stand behind their parent, so the induction is on what is left of the list
  induction hn : F.nodes.length - F.nodes.idxOf x using Nat.strongRecOn generalizing x with
  | ind n ih =>
    refine h x fun c hc => ?_
    have hunder := F.mem_children.mp hc
    have hlt := F.parent_lt hunder
    have hlength := List.idxOf_lt_length_of_mem (F.mem_of_parent hunder)
    exact ih _ (by omega) c rfl

/-! ## The walk up

From a node to its parent, and on to a root. It ends, since a parent was added before its children. -/

/-- The proper ancestors of `x`, the nearest first. -/
def ancestors (x : α) : List α :=
  match _h : F.parent x with
  | none => []
  | some p => p :: ancestors p
termination_by F.nodes.idxOf x
decreasing_by exact F.parent_lt _h

theorem ancestors_of_none {x : α} (h : F.parent x = none) : F.ancestors x = [] := by
  unfold ancestors
  split
  · rfl
  · next heq => rw [h] at heq; cases heq

/-- The ancestors of any other node are its parent and those of its parent. -/
theorem ancestors_of_some {x p : α} (h : F.parent x = some p) : F.ancestors x = p :: F.ancestors p := by
  rw [ancestors]
  split
  · next heq => rw [h] at heq; cases heq
  · next q heq =>
    rw [h] at heq
    cases heq
    rfl

/-- A property of the roots that goes from a parent to its children holds of all nodes. -/
theorem upward_induction {P : α → Prop} (hroot : ∀ x, F.parent x = none → P x)
    (hstep : ∀ x p, F.parent x = some p → P p → P x) (x : α) : P x := by
  induction hn : F.nodes.idxOf x using Nat.strongRecOn generalizing x with
  | ind n ih =>
    cases hparent : F.parent x with
    | none => exact hroot x hparent
    | some p =>
      have hlt := F.parent_lt hparent
      exact hstep x p hparent (ih _ (hn ▸ hlt) p rfl)

/-- The ancestors are the nodes above, at any distance. -/
theorem mem_ancestors {x a : α} : a ∈ F.ancestors x ↔ Relation.TransGen F.Under x a := by
  refine F.upward_induction (P := fun x => a ∈ F.ancestors x ↔ Relation.TransGen F.Under x a) ?_ ?_ x
  · intro x hroot
    rw [F.ancestors_of_none hroot]
    refine iff_of_false List.not_mem_nil fun h => ?_
    rcases Relation.TransGen.head'_iff.mp h with ⟨p, hp, -⟩
    exact Option.some_ne_none p (hp.symm.trans hroot)
  · intro x p hparent ih
    rw [F.ancestors_of_some hparent, List.mem_cons, ih]
    refine ⟨fun h => ?_, fun h => ?_⟩
    · rcases h with rfl | hup
      · exact Relation.TransGen.single hparent
      · exact Relation.TransGen.head hparent hup
    · rcases Relation.TransGen.head'_iff.mp h with ⟨q, hq, hrest⟩
      have heq : q = p := F.under_unique hq hparent
      subst heq
      exact (Relation.reflTransGen_iff_eq_or_transGen.mp hrest).imp_left fun heq => heq

/-- The walk up meets no node twice. -/
theorem nodup_ancestors (x : α) : (F.ancestors x).Nodup := by
  refine F.upward_induction (P := fun x => (F.ancestors x).Nodup) ?_ ?_ x
  · intro x hroot
    rw [F.ancestors_of_none hroot]
    exact List.nodup_nil
  · intro x p hparent ih
    rw [F.ancestors_of_some hparent]
    exact List.nodup_cons.mpr ⟨fun h => F.not_ancestor_self p (F.mem_ancestors.mp h), ih⟩

/-! ## The walk down

A node, and then the subtrees of its children: the order in which a recursive function visits them. -/

/-- `x` and the nodes below it: each before its children, and these one after the other. -/
def preorder (x : α) : List α :=
  x :: (F.children x).attach.flatMap fun c => preorder c.1
termination_by F.nodes.length - F.nodes.idxOf x
decreasing_by
  have hunder := F.mem_children.mp c.2
  have hlt := F.parent_lt hunder
  have hlength := List.idxOf_lt_length_of_mem (F.mem_of_parent hunder)
  omega

theorem preorder_eq (x : α) : F.preorder x = x :: (F.children x).flatMap F.preorder := by
  rw [preorder]
  rw [List.flatMap_subtype fun _ _ => rfl, List.unattach_attach]

/-- The nodes of a subtree are those below its root. -/
theorem mem_preorder {x v : α} : v ∈ F.preorder x ↔ Relation.ReflTransGen F.Under v x := by
  refine F.downward_induction (P := fun x => v ∈ F.preorder x ↔ Relation.ReflTransGen F.Under v x) ?_ x
  intro x ih
  rw [F.preorder_eq, List.mem_cons, List.mem_flatMap, Relation.ReflTransGen.cases_tail_iff]
  refine or_congr ⟨fun h => h.symm, fun h => h.symm⟩ ⟨fun ⟨c, hc, hv⟩ => ?_, fun ⟨c, hv, hc⟩ => ?_⟩
  · exact ⟨c, (ih c hc).mp hv, F.mem_children.mp hc⟩
  · have hmem := F.mem_children.mpr hc
    exact ⟨c, hmem, (ih c hmem).mpr hv⟩

/-- Two children of a node have nothing below them in common. -/
theorem disjoint_preorder {x c d : α} (hc : F.Under c x) (hd : F.Under d x) (hne : c ≠ d) :
    List.Disjoint (F.preorder c) (F.preorder d) := by
  intro v hvc hvd
  -- the ancestors of `v` are on one line, so one of the two children would lie below the other
  have hbelow : ∀ {a b : α}, F.Under a x → F.Under b x → a ≠ b → ¬ Relation.ReflTransGen F.Under a b := by
    intro a b ha hb hab h
    rcases Relation.reflTransGen_iff_eq_or_transGen.mp h with heq | hup
    · exact hab heq.symm
    · rcases Relation.TransGen.head'_iff.mp hup with ⟨q, hq, hrest⟩
      have hqx : q = x := F.under_unique hq ha
      subst hqx
      exact F.not_ancestor_self q (Relation.TransGen.tail' hrest hb)
  rcases Relation.ReflTransGen.total_of_right_unique F.under_unique (F.mem_preorder.mp hvc)
    (F.mem_preorder.mp hvd) with h | h
  · exact hbelow hc hd hne h
  · exact hbelow hd hc hne.symm h

/-- Each of them is visited once. -/
theorem nodup_preorder (x : α) : (F.preorder x).Nodup := by
  refine F.downward_induction (P := fun x => (F.preorder x).Nodup) ?_ x
  intro x ih
  rw [F.preorder_eq, List.nodup_cons, List.nodup_flatMap]
  refine ⟨fun h => ?_, ih, ?_⟩
  · rcases List.mem_flatMap.mp h with ⟨c, hc, hmem⟩
    exact F.not_ancestor_self x
      (Relation.TransGen.tail' (F.mem_preorder.mp hmem) (F.mem_children.mp hc))
  · refine (F.nodup_children x).imp_of_mem fun hc hd hne => ?_
    exact F.disjoint_preorder (F.mem_children.mp hc) (F.mem_children.mp hd) hne

section

variable {F} {x : α} {q : α → Bool} (hq : ∀ v ∈ F.nodes, q v → F.Under v x)
include hq

/-- Of a child and what is below it, only the child is a child of `x`. -/
theorem filter_preorder_child {c : α} (hc : F.Under c x) : (F.preorder c).filter q = [c].filter q := by
  have hbelow : ((F.children c).flatMap F.preorder).filter q = [] := by
    refine List.filter_eq_nil_iff.mpr fun v hv hqv => ?_
    obtain ⟨d, hd, hvd⟩ := List.mem_flatMap.mp hv
    have hup : Relation.TransGen F.Under v c :=
      Relation.TransGen.tail' (F.mem_preorder.mp hvd) (F.mem_children.mp hd)
    obtain ⟨p, hvp, -⟩ := Relation.TransGen.head'_iff.mp hup
    by_cases hvc : v = c
    · exact F.not_ancestor_self c (hvc ▸ hup)
    · exact F.disjoint_preorder hc (hq v (F.mem_of_parent hvp) hqv) (Ne.symm hvc)
        (F.mem_preorder.mpr hup.to_reflTransGen) (F.mem_preorder.mpr .refl)
  rw [F.preorder_eq, List.filter_cons, List.filter_cons, hbelow, List.filter_nil]

/-- The children of `x` among what the walk down from it meets. -/
theorem filter_preorder (hx : x ∈ F.nodes) : (F.preorder x).filter q = (F.children x).filter q := by
  have hself : ¬ q x := fun h => F.not_ancestor_self x (Relation.TransGen.single (hq x hx h))
  rw [F.preorder_eq, List.filter_cons_of_neg hself]
  calc ((F.children x).flatMap F.preorder).filter q
      = (F.children x).flatMap fun c => (F.preorder c).filter q := List.filter_flatMap
    _ = (F.children x).flatMap fun c => [c].filter q :=
        List.flatMap_congr fun c hc => filter_preorder_child hq (F.mem_children.mp hc)
    _ = ((F.children x).flatMap fun c => [c]).filter q := List.filter_flatMap.symm
    _ = (F.children x).filter q := by rw [List.flatMap_singleton']

end

/-- A parent stands before its children. -/
theorem parent_before {x v u : α} (hv : v ∈ F.preorder x) (hne : v ≠ x) (hparent : F.Under v u) :
    [u, v].Sublist (F.preorder x) := by
  revert hv hne
  refine F.downward_induction
    (P := fun x => v ∈ F.preorder x → v ≠ x → [u, v].Sublist (F.preorder x)) ?_ x
  intro x ih hv hne
  rw [F.preorder_eq, List.mem_cons] at hv
  rcases List.mem_flatMap.mp (hv.resolve_left hne) with ⟨c, hc, hmem⟩
  have hsub : (F.preorder c).Sublist ((F.children x).flatMap F.preorder) :=
    List.sublist_flatten_of_mem (List.mem_map_of_mem hc)
  rw [F.preorder_eq]
  by_cases hcv : v = c
  · -- a child of `x` itself
    subst hcv
    have hux : u = x := F.under_unique hparent (F.mem_children.mp hc)
    subst hux
    exact List.Sublist.cons_cons u ((List.singleton_sublist.mpr hmem).trans hsub)
  · exact List.Sublist.cons x ((ih c hc hmem hcv).trans hsub)

end

/-! ## One more node

A node that is added becomes the last child of its parent, and nothing else changes. -/

section

variable {F : Forest α} {x : α} {parent : Option α} {hx : x ∉ F.nodes}
  {hparent : ∀ p, parent = some p → p ∈ F.nodes}

theorem add_parent_self : (F.add x parent hx hparent).parent x = parent := Function.update_self _ _ _

theorem add_parent_of_mem {w : α} (hw : w ∈ F.nodes) : (F.add x parent hx hparent).parent w = F.parent w := by
  refine Function.update_of_ne ?_ _ _
  rintro rfl
  exact hx hw

/-- The new node is the last child of its parent. -/
theorem add_children (w : α) :
    (F.add x parent hx hparent).children w = F.children w ++ if parent = some w then [x] else [] := by
  unfold children
  show (F.nodes ++ [x]).filter _ = _
  rw [List.filter_append]
  congr 1
  · refine List.filter_congr fun c hc => ?_
    rw [add_parent_of_mem hc]
  · rw [List.filter_singleton, add_parent_self]
    by_cases h : parent = some w
    · rw [if_pos h, decide_eq_true h]
      rfl
    · rw [if_neg h, decide_eq_false h]
      rfl

theorem add_children_self : (F.add x parent hx hparent).children x = [] := by
  have hnone : F.children x = [] :=
    List.eq_nil_iff_forall_not_mem.mpr fun c hc => hx (F.mem_of_under (F.mem_children.mp hc))
  rw [add_children, hnone, if_neg fun h => hx (hparent x h), List.nil_append]

end

/-! ## Pointers

How a forest is kept in memory: each node has a pointer to its parent, to its first child, and to its next
sibling. -/

section

variable {β : Type*} {next next' : β → β} {nil : β}

/-- The list from `a` along `next`, up to the null pointer. -/
def Links (next : β → β) (nil : β) : β → List β → Prop
  | a, [] => a = nil
  | a, x :: l => a = x ∧ x ≠ nil ∧ Links next nil (next x) l

/-- The links from a node lead through one list only. -/
theorem Links.unique {l l' : List β} {a : β} (h : Links next nil a l) (h' : Links next nil a l') : l = l' := by
  induction l generalizing a l' with
  | nil =>
    cases l' with
    | nil => rfl
    | cons y l' => exact absurd (h'.1.symm.trans h) h'.2.1
  | cons x l ih =>
    cases l' with
    | nil => exact absurd (h.1.symm.trans h') h.2.1
    | cons y l' =>
      have hxy : x = y := h.1.symm.trans h'.1
      subst hxy
      rw [ih h.2.2 h'.2.2]

theorem Links.congr {l : List β} {a : β} (h : Links next nil a l) (heq : ∀ x ∈ l, next' x = next x) :
    Links next' nil a l := by
  induction l generalizing a with
  | nil => exact h
  | cons x l ih =>
    refine ⟨h.1, h.2.1, ?_⟩
    rw [heq x List.mem_cons_self]
    exact ih h.2.2 fun y hy => heq y (List.mem_cons_of_mem x hy)

/-- A node linked behind the last one. -/
theorem Links.snoc {l : List β} {a x y : β} (h : Links next nil a (l ++ [x]))
    (heq : ∀ z ∈ l, next' z = next z) (hx : next' x = y) (hy : y ≠ nil) (hend : next' y = nil) :
    Links next' nil a (l ++ [x] ++ [y]) := by
  induction l generalizing a with
  | nil =>
    refine ⟨h.1, h.2.1, hx, hy, ?_⟩
    exact hend
  | cons z l ih =>
    refine ⟨h.1, h.2.1, ?_⟩
    rw [heq z List.mem_cons_self]
    exact ih h.2.2 fun w hw => heq w (List.mem_cons_of_mem z hw)

end

/-- The pointers of the nodes to their parents, first children and next siblings hold the forest. -/
structure Threaded (F : Forest α) (nil : α) (parent child next : α → α) : Prop where
  nil_not_mem : nil ∉ F.nodes
  parent : ∀ w ∈ F.nodes, parent w = (F.parent w).getD nil
  child : ∀ w ∈ F.nodes, Links next nil (child w) (F.children w)

section

variable {F : Forest α} {nil : α} {parent child next parent' child' next' : α → α}

/-- Pointers of other objects do not matter. -/
theorem Threaded.congr (h : Threaded F nil parent child next) (hparent : ∀ w ∈ F.nodes, parent' w = parent w)
    (hchild : ∀ w ∈ F.nodes, child' w = child w) (hnext : ∀ w ∈ F.nodes, next' w = next w) :
    Threaded F nil parent' child' next' where
  nil_not_mem := h.nil_not_mem
  parent w hw := (hparent w hw).trans (h.parent w hw)
  child w hw := by
    rw [hchild w hw]
    exact (h.child w hw).congr fun c hc => hnext c ((F.children_sublist w).subset hc)

variable {x : α}

/-- What the pointers have to be once the node `x` has been added. -/
theorem Threaded.add (h : Threaded F nil parent child next) {p : Option α} (hx : x ∉ F.nodes)
    (hp : ∀ q, p = some q → q ∈ F.nodes) (hne : x ≠ nil) (hparent : ∀ w ∈ F.nodes, parent' w = parent w)
    (hparentx : parent' x = p.getD nil) (hchildx : child' x = nil)
    (hchild : ∀ w ∈ F.nodes,
      Links next' nil (child' w) (F.children w ++ if p = some w then [x] else [])) :
    Threaded (F.add x p hx hp) nil parent' child' next' where
  nil_not_mem hmem := (List.mem_append.mp hmem).elim h.nil_not_mem fun hlast =>
    hne (List.mem_singleton.mp hlast).symm
  parent w hw := by
    rcases List.mem_append.mp hw with hold | hnew
    · rw [hparent w hold, h.parent w hold, add_parent_of_mem hold]
    · rw [List.mem_singleton.mp hnew, hparentx, add_parent_self]
  child w hw := by
    rcases List.mem_append.mp hw with hold | hnew
    · rw [add_children]
      exact hchild w hold
    · rw [List.mem_singleton.mp hnew, add_children_self]
      exact hchildx

/-- A node without a parent. -/
theorem Threaded.add_root (h : Threaded F nil parent child next) (hx : x ∉ F.nodes) (hne : x ≠ nil)
    (hparent : ∀ w ∈ F.nodes, parent' w = parent w) (hparentx : parent' x = nil) (hchildx : child' x = nil)
    (hchild : ∀ w ∈ F.nodes, child' w = child w) (hnext : ∀ w ∈ F.nodes, next' w = next w) :
    Threaded (F.add x none hx fun _ h => nomatch h) nil parent' child' next' := by
  refine h.add hx _ hne hparent hparentx hchildx fun w hw => ?_
  rw [if_neg (Option.some_ne_none w).symm, List.append_nil]
  exact (h.congr hparent hchild hnext).child w hw

/-- The first child of `q`. -/
theorem Threaded.add_first (h : Threaded F nil parent child next) (hx : x ∉ F.nodes) (hne : x ≠ nil) {q : α}
    (hq : q ∈ F.nodes) (hempty : child q = nil) (hparent : ∀ w ∈ F.nodes, parent' w = parent w)
    (hparentx : parent' x = q) (hchildx : child' x = nil)
    (hchild : ∀ w ∈ F.nodes, w ≠ q → child' w = child w) (hchildq : child' q = x)
    (hnext : ∀ w ∈ F.nodes, next' w = next w) (hnextx : next' x = nil) :
    Threaded (F.add x (some q) hx fun _ h => Option.some.inj h ▸ hq) nil parent' child' next' := by
  refine h.add hx _ hne hparent hparentx hchildx fun w hw => ?_
  by_cases hwq : w = q
  · subst hwq
    have hnone : F.children w = [] := (h.child w hw).unique hempty
    rw [if_pos rfl, hnone, hchildq]
    exact ⟨rfl, hne, hnextx⟩
  · rw [if_neg fun heq => hwq (Option.some.inj heq).symm, List.append_nil, hchild w hw hwq]
    exact (h.child w hw).congr fun c hc => hnext c ((F.children_sublist w).subset hc)

/-- A child of `q` behind its last one. -/
theorem Threaded.add_last (h : Threaded F nil parent child next) (hx : x ∉ F.nodes) (hne : x ≠ nil)
    {q last : α} {l : List α} (hq : q ∈ F.nodes) (hlast : F.children q = l ++ [last])
    (hparent : ∀ w ∈ F.nodes, parent' w = parent w) (hparentx : parent' x = q) (hchildx : child' x = nil)
    (hchild : ∀ w ∈ F.nodes, child' w = child w) (hnext : ∀ w ∈ F.nodes, w ≠ last → next' w = next w)
    (hnextlast : next' last = x) (hnextx : next' x = nil) :
    Threaded (F.add x (some q) hx fun _ h => Option.some.inj h ▸ hq) nil parent' child' next' := by
  have hunder : F.Under last q := F.mem_children.mp (by
    rw [hlast]
    exact List.mem_append_right l List.mem_cons_self)
  refine h.add hx _ hne hparent hparentx hchildx fun w hw => ?_
  rw [hchild w hw]
  by_cases hwq : w = q
  · subst hwq
    have hold := h.child w hw
    have hnodup := F.nodup_children w
    rw [hlast] at hold hnodup
    rw [if_pos rfl, hlast]
    refine hold.snoc (fun z hz => hnext z ?_ ?_) hnextlast hne hnextx
    · refine (F.children_sublist w).subset ?_
      rw [hlast]
      exact List.mem_append_left _ hz
    · rintro rfl
      exact List.disjoint_of_nodup_append hnodup hz List.mem_cons_self
  · -- the last child of `q` is a child of no other node
    rw [if_neg fun heq => hwq (Option.some.inj heq).symm, List.append_nil]
    refine (h.child w hw).congr fun c hc => hnext c ((F.children_sublist w).subset hc) ?_
    rintro rfl
    exact hwq (F.under_unique (F.mem_children.mp hc) hunder)

end

end Forest
