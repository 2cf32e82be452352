import DiyOS.Gui.Widget
import DiyOS.Lib.Forest

/-!
# The forest of widgets

The widgets that the constructors have made, with the parents they were given, are a forest, and the links
of the widgets hold it.

* **`Holds`** — the links of `s` hold the forest `F`. `Holds.setParent` is what `widget_set_parent` does to
  them.
* **`Built`** — they hold the forest of the widgets created so far. Each constructor adds what it returns,
  unless it stops (`widgetCreate_yields`, …, `buttonCreate_yields`).
-/

namespace DiyOS

open Word

/-! ## `widget_set_parent`

`widget_set_parent` puts a widget behind the last child of its parent. For a widget without children of its own,
and in none of the lists, that is the operation `Forest.add`; the three ways to do it (no parent, an only child,
a later one) are a lemma each. -/

section

variable (s : Widgets) (p : Nat) (f : Widget → Widget)

theorem setWidget_widget (w : Nat) :
    (s.setWidget p f).widget w = if w = p then f (s.widget p) else s.widget w := Function.update_apply _ _ _ _

theorem setWidget_self : (s.setWidget p f).widget p = f (s.widget p) := Function.update_self _ _ _

theorem setWidget_of_ne {w : Nat} (h : w ≠ p) : (s.setWidget p f).widget w = s.widget w :=
  Function.update_of_ne h _ _

end

/-- The siblings from `a` on, up to the null pointer. -/
def Siblings (s : Widgets) (a : Nat) (l : List Nat) : Prop :=
  Forest.Links (fun w => (s.widget w).next) null a l

/-- The loop ends at the last of the siblings, if its fuel is for more than those before it. -/
theorem lastSibling_eq {s : Widgets} {l : List Nat} {a last : Nat} (h : Siblings s a (l ++ [last]))
    (fuel : Nat) : lastSibling fuel s a = if l.length < fuel then .ok last else .error .loops := by
  induction fuel generalizing l a with
  | zero => rfl
  | succ fuel ih =>
    -- one turn of the loop for each sibling before the last
    rw [lastSibling]
    cases l with
    | nil =>
      rcases h with ⟨rfl, -, hend⟩
      exact (if_neg fun hne => hne hend).trans (if_pos (Nat.succ_pos fuel)).symm
    | cons x l =>
      rcases h with ⟨rfl, -, hrest⟩
      have hnext : (s.widget a).next ≠ null := by
        cases l with
        | nil => exact fun heq => hrest.2.1 (hrest.1.symm.trans heq)
        | cons y l => exact fun heq => hrest.2.1 (hrest.1.symm.trans heq)
      rw [if_pos hnext, ih hrest]
      simp only [List.length_cons, Nat.add_lt_add_iff_right]

/-- The links of the widgets hold `F`; none of them has a function to paint. -/
structure Holds (s : Widgets) (F : Forest Nat) : Prop where
  threaded : Forest.Threaded F null (fun w => (s.widget w).parent) (fun w => (s.widget w).child)
    fun w => (s.widget w).next
  onPaint : ∀ w ∈ F.nodes, (s.widget w).onPaint = none
  desktop : s.desktopWindow = null ∨ s.desktopWindow ∈ F.nodes

/-- The links of a widget, and its function to paint. -/
structure SameLinks (w w' : Widget) : Prop where
  parent : w'.parent = w.parent
  child : w'.child = w.child
  next : w'.next = w.next
  onPaint : w'.onPaint = w.onPaint

theorem SameLinks.refl (w : Widget) : SameLinks w w := ⟨rfl, rfl, rfl, rfl⟩

section

variable {s s' : Widgets} {F : Forest Nat}

/-- Only the links matter. -/
theorem Holds.congr (h : Holds s F) (hlinks : ∀ w ∈ F.nodes, SameLinks (s.widget w) (s'.widget w))
    (hdesktop : s'.desktopWindow = s.desktopWindow) : Holds s' F where
  threaded := h.threaded.congr (fun w hw => (hlinks w hw).parent) (fun w hw => (hlinks w hw).child)
    fun w hw => (hlinks w hw).next
  onPaint w hw := (hlinks w hw).onPaint.trans (h.onPaint w hw)
  desktop := by
    rw [hdesktop]
    exact h.desktop

/-! The three ways of `widget_set_parent`. -/

section

variable {x p : Nat} (fuel : Nat)

theorem widgetSetParent_root (hne : x ≠ null) :
    widgetSetParent fuel s x null = .ok (s.setWidget x fun w => { w with parent := null }) := by
  unfold widgetSetParent
  rw [if_neg hne]
  rfl

theorem widgetSetParent_first (hne : x ≠ null) (hp : p ≠ null) (hpx : p ≠ x)
    (hchild : (s.widget p).child = null) :
    widgetSetParent fuel s x p = .ok (((s.setWidget x fun w => { w with parent := p }).setWidget p
      fun w => { w with child := x }).setWidget x fun w => { w with next := null }) := by
  unfold widgetSetParent
  simp only [setWidget_of_ne _ _ _ hpx, if_neg hne, if_neg hp, hchild, ne_eq, not_true_eq_false, if_false]
  rfl

/-- The loop comes to the last child, which gets the new one as its `next`. -/
theorem widgetSetParent_last (hne : x ≠ null) (hp : p ≠ null) (hpx : p ≠ x) {l : List Nat} {last : Nat}
    (hsiblings : Siblings s (s.widget p).child (l ++ [last])) (hx : x ∉ l ++ [last]) :
    widgetSetParent fuel s x p = if l.length < fuel then
      .ok (((s.setWidget x fun w => { w with parent := p }).setWidget last
        fun w => { w with next := x }).setWidget x fun w => { w with next := null })
    else .error .loops := by
  have hchild : (s.widget p).child ≠ null := by
    cases l with
    | nil => exact fun heq => hsiblings.2.1 (hsiblings.1.symm.trans heq)
    | cons y l => exact fun heq => hsiblings.2.1 (hsiblings.1.symm.trans heq)
  -- the new widget is none of the siblings, so that its `parent` does not matter to them
  have hsame : Siblings (s.setWidget x fun w => { w with parent := p }) (s.widget p).child (l ++ [last]) := by
    refine hsiblings.congr fun w hw => ?_
    have hwx : w ≠ x := by
      rintro rfl
      exact hx hw
    rw [setWidget_of_ne _ _ _ hwx]
  unfold widgetSetParent
  simp only [setWidget_of_ne _ _ _ hpx, if_neg hne, if_neg hp, hchild, ne_eq, not_false_eq_true, if_true,
    lastSibling_eq hsame]
  split <;> rfl

end

/-- `widget_set_parent` assigns to widgets only. -/
theorem widgetSetParent_frame {fuel x p : Nat} (h : widgetSetParent fuel s x p = .ok s') :
    s' = { s with widget := s'.widget } := by
  unfold widgetSetParent at h
  split at h
  · cases h
    rfl
  · dsimp only at h
    split at h
    · cases h
      rfl
    · split at h
      · rcases bind_eq_ok.mp h with ⟨chld, -, hchld⟩
        cases hchld
        rfl
      · cases h
        rfl

/-- A pointer, as a parent of the forest. -/
def pointer (p : Nat) : Option Nat := if p = null then none else some p

/-- What else has to be seen of a state whose links hold one more widget. -/
theorem Holds.of_threaded (h : Holds s F) {x : Nat} {o : Option Nat} {hx : x ∉ F.nodes}
    {ho : ∀ q, o = some q → q ∈ F.nodes}
    (hthreaded : Forest.Threaded (F.add x o hx ho) null (fun w => (s'.widget w).parent)
      (fun w => (s'.widget w).child) fun w => (s'.widget w).next)
    (hpaint : ∀ w ∈ F.nodes, (s'.widget w).onPaint = (s.widget w).onPaint)
    (hpaintx : (s'.widget x).onPaint = none) (hdesktop : s'.desktopWindow = s.desktopWindow) :
    Holds s' (F.add x o hx ho) where
  threaded := hthreaded
  onPaint w hw := by
    rcases List.mem_append.mp hw with hold | hnew
    · rw [hpaint w hold, h.onPaint w hold]
    · rw [List.mem_singleton.mp hnew, hpaintx]
  desktop := by
    rw [hdesktop]
    exact h.desktop.imp_right fun hmem => List.mem_append_left [x] hmem

/-- `s'` is `s` with the new widget `x`, whose parent is `p`, linked to `q` by the assignment `g`. -/
structure LinkedTo (s s' : Widgets) (x p q : Nat) (g : Widget → Widget) : Prop where
  self : s'.widget x = { s.widget x with parent := p, next := null }
  linked : s'.widget q = g (s.widget q)
  rest : ∀ w, w ≠ x → w ≠ q → s'.widget w = s.widget w
  desktop : s'.desktopWindow = s.desktopWindow

/-- What the three assignments of `widget_set_parent` come to. -/
theorem linkedTo {x p q : Nat} (hqx : q ≠ x) (g : Widget → Widget) :
    LinkedTo s (((s.setWidget x fun w => { w with parent := p }).setWidget q g).setWidget x
      fun w => { w with next := null }) x p q g where
  self := by
    rw [setWidget_self, setWidget_of_ne _ _ _ hqx.symm, setWidget_self]
  linked := by
    rw [setWidget_of_ne _ _ _ hqx, setWidget_self, setWidget_of_ne _ _ _ hqx]
  rest w hwx hwq := by
    rw [setWidget_of_ne _ _ _ hwx, setWidget_of_ne _ _ _ hwq, setWidget_of_ne _ _ _ hwx]
  desktop := rfl

/-- A field that the assignment leaves. -/
theorem LinkedTo.field {x p q : Nat} {g : Widget → Widget} (hl : LinkedTo s s' x p q g) {β : Type}
    (field : Widget → β) (hfield : field (g (s.widget q)) = field (s.widget q)) {w : Nat} (hwx : w ≠ x) :
    field (s'.widget w) = field (s.widget w) := by
  by_cases hwq : w = q
  · rw [hwq, hl.linked, hfield]
  · rw [hl.rest w hwx hwq]

section

variable {x p : Nat} (hx : x ∉ F.nodes) (hne : x ≠ null) (hchild : (s.widget x).child = null)
  (hpaint : (s.widget x).onPaint = none)
include hx hne hchild hpaint

/-- A new root. -/
theorem Holds.root (h : Holds s F) :
    Holds (s.setWidget x fun w => { w with parent := null }) (F.add x none hx fun _ h => nomatch h) := by
  have hself := setWidget_self s x fun w => { w with parent := null }
  have hwidget : ∀ w ∈ F.nodes, (s.setWidget x fun w => { w with parent := null }).widget w = s.widget w :=
    fun w hw => setWidget_of_ne _ _ _ fun heq => hx (heq ▸ hw)
  refine h.of_threaded (h.threaded.add_root hx hne ?_ ?_ ?_ ?_ ?_) ?_ ?_ rfl
  · exact fun w hw => congrArg Widget.parent (hwidget w hw)
  · exact congrArg Widget.parent hself
  · exact (congrArg Widget.child hself).trans hchild
  · exact fun w hw => congrArg Widget.child (hwidget w hw)
  · exact fun w hw => congrArg Widget.next (hwidget w hw)
  · exact fun w hw => congrArg Widget.onPaint (hwidget w hw)
  · exact (congrArg Widget.onPaint hself).trans hpaint

/-- A new only child. -/
theorem Holds.first (h : Holds s F) (hp : p ∈ F.nodes) (hempty : (s.widget p).child = null)
    (hl : LinkedTo s s' x p p fun w => { w with child := x }) :
    Holds s' (F.add x (some p) hx fun _ h => Option.some.inj h ▸ hp) := by
  have hother : ∀ w ∈ F.nodes, w ≠ x := fun w hw heq => hx (heq ▸ hw)
  refine h.of_threaded (h.threaded.add_first hx hne hp hempty ?_ ?_ ?_ ?_ ?_ ?_ ?_) ?_ ?_ hl.desktop
  · exact fun w hw => hl.field Widget.parent rfl (hother w hw)
  · exact congrArg Widget.parent hl.self
  · exact (congrArg Widget.child hl.self).trans hchild
  · exact fun w hw hwp => congrArg Widget.child (hl.rest w (hother w hw) hwp)
  · exact congrArg Widget.child hl.linked
  · exact fun w hw => hl.field Widget.next rfl (hother w hw)
  · exact congrArg Widget.next hl.self
  · exact fun w hw => hl.field Widget.onPaint rfl (hother w hw)
  · exact (congrArg Widget.onPaint hl.self).trans hpaint

/-- A new child behind the others. -/
theorem Holds.last (h : Holds s F) (hp : p ∈ F.nodes) {l : List Nat} {last : Nat}
    (hlast : F.children p = l ++ [last]) (hl : LinkedTo s s' x p last fun w => { w with next := x }) :
    Holds s' (F.add x (some p) hx fun _ h => Option.some.inj h ▸ hp) := by
  have hother : ∀ w ∈ F.nodes, w ≠ x := fun w hw heq => hx (heq ▸ hw)
  refine h.of_threaded (h.threaded.add_last hx hne hp hlast ?_ ?_ ?_ ?_ ?_ ?_ ?_) ?_ ?_ hl.desktop
  · exact fun w hw => hl.field Widget.parent rfl (hother w hw)
  · exact congrArg Widget.parent hl.self
  · exact (congrArg Widget.child hl.self).trans hchild
  · exact fun w hw => hl.field Widget.child rfl (hother w hw)
  · exact fun w hw hwl => congrArg Widget.next (hl.rest w (hother w hw) hwl)
  · exact congrArg Widget.next hl.linked
  · exact congrArg Widget.next hl.self
  · exact fun w hw => hl.field Widget.onPaint rfl (hother w hw)
  · exact (congrArg Widget.onPaint hl.self).trans hpaint

/-- **`widget_set_parent`** on a new widget: unless it runs out of fuel, it adds the widget to the
forest. -/
theorem Holds.setParent (h : Holds s F) (hp : ∀ q, pointer p = some q → q ∈ F.nodes) (fuel : Nat) :
    (∃ s', widgetSetParent fuel s x p = .ok s' ∧ Holds s' (F.add x (pointer p) hx hp))
      ∨ widgetSetParent fuel s x p = .error .loops ∧ fuel ≤ F.nodes.length := by
  by_cases hroot : p = null
  · have hnone : pointer p = none := if_pos hroot
    revert hp
    rw [hnone, hroot, widgetSetParent_root fuel hne]
    exact fun _ => Or.inl ⟨_, rfl, h.root hx hne hchild hpaint⟩
  · have hsome : pointer p = some p := if_neg hroot
    have hpmem := hp p hsome
    have hpx : p ≠ x := by
      rintro rfl
      exact hx hpmem
    have hchildren := h.threaded.child p hpmem
    revert hp
    rw [hsome]
    intro hp
    -- the first child hangs at its parent, a later one at the last sibling
    rcases List.eq_nil_or_concat (F.children p) with hnil | ⟨l, last, hlast⟩
    · rw [hnil] at hchildren
      rw [widgetSetParent_first fuel hne hroot hpx hchildren]
      exact Or.inl ⟨_, rfl, h.first hx hne hchild hpaint hpmem hchildren (linkedTo hpx _)⟩
    · have hsub := F.children_sublist p
      rw [List.concat_eq_append] at hlast
      rw [hlast] at hchildren hsub
      have hlength := hsub.length_le
      rw [List.length_append, List.length_singleton] at hlength
      -- fewer siblings than nodes, so that fuel for all nodes is enough
      rw [widgetSetParent_last fuel hne hroot hpx hchildren fun hmem => hx (hsub.subset hmem)]
      by_cases hfuel : l.length < fuel
      · have hlx : last ≠ x := by
          rintro rfl
          exact hx (hsub.subset (List.mem_append_right l List.mem_cons_self))
        rw [if_pos hfuel]
        exact Or.inl ⟨_, rfl, h.last hx hne hchild hpaint hpmem hlast (linkedTo hlx _)⟩
      · rw [if_neg hfuel]
        exact Or.inr ⟨rfl, by omega⟩

end

end

/-! ## The constructors

Each constructor gets memory, initialises it, and calls `widget_set_parent`; what else it assigns are no links.
So one lemma about a call that `Yields` a forest (`Built.attach`, `Built.returning`) serves all of them. -/

/-- A call with `fuel` has a result in `Q`, unless it stops; for want of fuel it does so only when it has
at most `n`. -/
def Yields {α : Type} (fuel n : Nat) (Q : α → Prop) : Except Halt α → Prop
  | .ok a => Q a
  | .error .loops => fuel ≤ n
  | .error _ => True

section

variable {α β : Type} {fuel n : Nat} {P Q : α → Prop} {R : β → Prop}

theorem Yields.bind {x : Except Halt α} {f : α → Except Halt β} (h : Yields fuel n Q x)
    (hf : ∀ a, Q a → Yields fuel n R (f a)) : Yields fuel n R (x >>= f) := by
  cases x with
  | ok a => exact hf a h
  | error e => cases e <;> exact h

theorem Yields.mono {n' : Nat} {x : Except Halt α} (h : Yields fuel n Q x) (hn : n ≤ n')
    (himp : ∀ a, Q a → P a) : Yields fuel n' P x := by
  cases x with
  | ok a => exact himp a h
  | error e =>
    cases e with
    | loops => exact Nat.le_trans h hn
    | panic message => exact h
    | undefined => exact h

/-- What is known of the result besides. -/
theorem Yields.and {x : Except Halt α} (h : Yields fuel n Q x) (hP : ∀ a, x = .ok a → P a) :
    Yields fuel n (fun a => Q a ∧ P a) x := by
  cases x with
  | ok a => exact ⟨h, hP a rfl⟩
  | error e => cases e <;> exact h

end

/-- The links of the widgets hold the forest of the widgets created so far, which are listed with the
parents they were given. -/
def Built (s : Widgets) (created : List (Nat × Nat)) : Prop :=
  ∃ F : Forest Nat, Holds s F ∧ F.nodes.map (fun w => (w, (F.parent w).getD null)) = created

/-- The links of all widgets are as they were. -/
structure LinksKept (s s' : Widgets) : Prop where
  links : ∀ w, SameLinks (s.widget w) (s'.widget w)
  desktop : s'.desktopWindow = s.desktopWindow

/-- `s'` is `s` with a widget at `mem` that has been initialised. -/
structure Initialised (s s' : Widgets) (mem : Nat) : Prop where
  rest : ∀ w, w ≠ mem → s'.widget w = s.widget w
  child : (s'.widget mem).child = null
  onPaint : (s'.widget mem).onPaint = none
  desktop : s'.desktopWindow = s.desktopWindow

section

variable {s s' : Widgets} {created : List (Nat × Nat)} {mem parent : Nat}

theorem nodes_of_created {F : Forest Nat} (h : F.nodes.map (fun w => (w, (F.parent w).getD null)) = created) :
    created.map Prod.fst = F.nodes := by
  rw [← h, List.map_map]
  exact List.map_id _

theorem Built.congr (h : Built s created) (hkept : LinksKept s s') : Built s' created := by
  rcases h with ⟨F, hF, hcreated⟩
  exact ⟨F, hF.congr (fun w _ => hkept.links w) hkept.desktop, hcreated⟩

/-- An assignment that keeps the links of its widget keeps all links. -/
theorem LinksKept.setWidget (h : LinksKept s s') {f : Widget → Widget} (hf : ∀ w, SameLinks w (f w)) (p : Nat) :
    LinksKept s (s'.setWidget p f) where
  links w := by
    have hw := h.links w
    rw [setWidget_widget]
    split
    · next heq =>
      have hfw := hf (s'.widget w)
      rw [← heq]
      exact ⟨hfw.parent.trans hw.parent, hfw.child.trans hw.child, hfw.next.trans hw.next,
        hfw.onPaint.trans hw.onPaint⟩
    · exact hw
  desktop := h.desktop

/-- Structs of another kind at the same addresses. -/
theorem LinksKept.of_widget_eq (hwidget : s'.widget = s.widget) (hdesktop : s'.desktopWindow = s.desktopWindow) :
    LinksKept s s' where
  links w := by
    rw [hwidget]
    exact .refl _
  desktop := hdesktop

/-- Further assignments to the new widget, but for its links. -/
theorem Initialised.setWidget (h : Initialised s s' mem) {f : Widget → Widget}
    (hchild : ∀ w, (f w).child = w.child) (hpaint : ∀ w, w.onPaint = none → (f w).onPaint = none) :
    Initialised s (s'.setWidget mem f) mem where
  rest w hw := (setWidget_of_ne _ _ _ hw).trans (h.rest w hw)
  child := by
    rw [setWidget_self, hchild, h.child]
  onPaint := by
    rw [setWidget_self, hpaint _ h.onPaint]
  desktop := h.desktop

/-- The first assignments of `widget_create`, which does not clear the memory. -/
theorem Initialised.of_setWidget {f : Widget → Widget} (hchild : (f (s.widget mem)).child = null)
    (hpaint : (f (s.widget mem)).onPaint = none) : Initialised s (s.setWidget mem f) mem where
  rest w hw := setWidget_of_ne _ _ _ hw
  child := by rw [setWidget_self, hchild]
  onPaint := by rw [setWidget_self, hpaint]
  desktop := rfl

/-- Memory given to a widget whose `memset` is followed by assignments that make it `w`. -/
theorem Initialised.of_update {w : Widget} (hwidget : s'.widget = Function.update s.widget mem w)
    (hchild : w.child = null) (hpaint : w.onPaint = none) (hdesktop : s'.desktopWindow = s.desktopWindow) :
    Initialised s s' mem where
  rest v hv := by rw [hwidget, Function.update_of_ne hv]
  child := by rw [hwidget, Function.update_self, hchild]
  onPaint := by rw [hwidget, Function.update_self, hpaint]
  desktop := hdesktop

/-- Structs of another kind do not matter. -/
theorem Initialised.congr {t : Widgets} (h : Initialised s s' mem) (hwidget : t.widget = s'.widget)
    (hdesktop : t.desktopWindow = s'.desktopWindow) : Initialised s t mem where
  rest w hw := by rw [hwidget, h.rest w hw]
  child := by rw [hwidget, h.child]
  onPaint := by rw [hwidget, h.onPaint]
  desktop := hdesktop.trans h.desktop

/-- `widget_set_parent` on a widget that has just been initialised. -/
theorem Built.attach (h : Built s created) (hinit : Initialised s s' mem) (hfresh : mem ∉ created.map Prod.fst)
    (hne : mem ≠ null) (hparent : parent = null ∨ parent ∈ created.map Prod.fst) (fuel : Nat) :
    Yields fuel created.length (fun t => Built t (created ++ [(mem, parent)]))
      (widgetSetParent fuel s' mem parent) := by
  rcases h with ⟨F, hF, hcreated⟩
  rw [nodes_of_created hcreated] at hfresh hparent
  have hlength : created.length = F.nodes.length := by rw [← hcreated, List.length_map]
  have hF' : Holds s' F := by
    refine hF.congr (fun w hw => ?_) hinit.desktop
    rw [hinit.rest w fun heq => hfresh (heq ▸ hw)]
    exact .refl _
  have hp : ∀ q, pointer parent = some q → q ∈ F.nodes := by
    intro q hq
    unfold pointer at hq
    split at hq
    · cases hq
    · next hnn =>
      cases hq
      exact hparent.resolve_left hnn
  rcases hF'.setParent hfresh hne hinit.child hinit.onPaint hp fuel with ⟨t, ht, hT⟩ | ⟨ht, hle⟩
  · rw [ht]
    refine ⟨_, hT, ?_⟩
    show (F.nodes ++ [mem]).map _ = _
    rw [List.map_append, ← hcreated]
    congr 1
    · -- the parents of the others are what they were
      refine List.map_congr_left fun w hw => ?_
      rw [Forest.add_parent_of_mem hw]
    · rw [List.map_singleton, Forest.add_parent_self]
      unfold pointer
      split
      · next heq => rw [heq]; rfl
      · rfl
  · rw [ht]
    exact hlength ▸ hle

end

/-! A window gets a name, and a label a size when its text is set: neither changes links. -/

theorem windowSetName_widget (s : Widgets) (window mem : Nat) (name : List UInt8) :
    (windowSetName s window name mem).widget = s.widget
      ∧ (windowSetName s window name mem).desktopWindow = s.desktopWindow := by
  unfold windowSetName
  split <;> exact ⟨rfl, rfl⟩

section

variable {fuel n : Nat} (s : Widgets)

/-- `label_size_request` keeps the links: it assigns the width and the height, or divides by 0. -/
theorem labelSizeRequest_yields (lbl : Nat) : Yields fuel n (LinksKept s) (labelSizeRequest s lbl) := by
  have hself : LinksKept s s := .of_widget_eq rfl rfl
  -- each assignment is to `w` and `h` only
  have hsize : ∀ w h : Widget → Nat,
      Yields fuel n (LinksKept s) (.ok (s.setWidget lbl fun v => { v with w := w v, h := h v })) :=
    fun w h => @LinksKept.setWidget s s hself (fun v => { v with w := w v, h := h v })
      (fun v => ⟨rfl, rfl, rfl, rfl⟩) lbl
  unfold labelSizeRequest
  split
  · exact hself
  · split
    · exact hsize (fun _ => 8) fun _ => 8
    · dsimp only
      split
      · split
        · split
          · exact trivial
          · exact hsize _ _
        · exact hself
      · exact hsize _ _

theorem labelSetText_yields (lbl : Nat) (text : Option (List UInt8)) (mem : Nat) :
    Yields fuel n (LinksKept s) (labelSetText s lbl text mem) := by
  unfold labelSetText
  split
  · exact LinksKept.of_widget_eq rfl rfl
  · refine (labelSizeRequest_yields _ lbl).mono le_rfl fun t ht => ?_
    exact ⟨ht.links, ht.desktop⟩

end

/-- The navigators that `file_navigator_set` is called on: those that list a directory, and new ones. -/
def FileNavigator.Loadable (nav : FileNavigator) : Prop :=
  nav.directory.isSome ∨ nav.files = [] ∧ nav.count = 0 ∧ nav.selected = 0xFFFFFFFF

/-- The navigator with a directory and its entries behind `..`. -/
def FileNavigator.listing (nav : FileNavigator) (directory : List UInt8) (entries : List Dirent) : FileNavigator :=
  { nav with directory := some directory, files := dotDot :: entries, count := entries.length + 1, selected := 0 }

/-- **`file_navigator_set`** lists the directory. No entry is chosen meanwhile: none is selected. -/
theorem fileNavigatorSet_eq (chosen : Dirent → Nat → Widgets → Except Halt Widgets) {s : Widgets} {fn : Nat}
    (hload : (s.fileNavigator fn).Loadable) (directory : List UInt8) (listing : Listing) :
    fileNavigatorSet chosen s fn directory listing = .ok { s with
      fileNavigator := Function.update s.fileNavigator fn
        ((s.fileNavigator fn).listing directory listing.entries) } := by
  have hlist : ∀ l : List Dirent, listing.entries.foldl listAdd l = l ++ listing.entries := by
    induction listing.entries with
    | nil => exact fun l => (List.append_nil l).symm
    | cons entry rest ih =>
      intro l
      rw [List.foldl_cons, ih, listAdd, List.append_assoc]
      rfl
  have hfits := listing.fits
  have hcount : u32 (0 + 1 + listing.entries.length) = listing.entries.length + 1 := by
    rw [u32_of_lt (by omega)]
    omega
  -- the index that is selected lies behind the end of any list in memory
  have hnone : listGet (dotDot :: listing.entries) 0xFFFFFFFF = none := by
    rw [listGet_eq_getElem]
    refine List.getElem?_eq_none ?_
    rw [List.length_cons]
    omega
  -- an old directory has been forgotten, and a new navigator has none
  have hempty : (if (s.fileNavigator fn).directory.isSome
        then { s.fileNavigator fn with files := [], count := 0, selected := 0xFFFFFFFF } else s.fileNavigator fn)
      = { s.fileNavigator fn with files := [], count := 0, selected := 0xFFFFFFFF } := by
    rcases hload with hold | ⟨hfiles, hzero, hselected⟩
    · exact if_pos hold
    · rw [← hfiles, ← hzero, ← hselected, ite_self]
  unfold fileNavigatorSet fileNavigatorChoose
  dsimp only
  simp only [hempty, Function.update_self, listAdd, List.nil_append, hlist, List.singleton_append, hnone, hcount,
    bind, Except.bind, ne_eq, Nat.add_one_ne_zero, not_false_eq_true, if_true, Function.update_idem]
  rfl

/-- What is listed of a constructor that has returned `p`. -/
def record (p parent : Nat) : List (Nat × Nat) := if p = null then [] else [(p, parent)]

/-- What is listed of a button that has been returned, and its label. -/
def buttonRecord (p parent lbl : Nat) : List (Nat × Nat) :=
  if p = null then [] else (p, parent) :: record lbl p

section

variable {s : Widgets} {created : List (Nat × Nat)} {mem parent : Nat} (h : Built s created)
  (hfresh : mem = null ∨ mem ∉ created.map Prod.fst) (fuel : Nat)
include h hfresh

/-- A constructor that returns what `malloc` has given it, and does nothing if that is the null pointer. -/
theorem Built.returning {body : Except Halt (Nat × Widgets)} {n : Nat}
    (hbody : mem ≠ null → mem ∉ created.map Prod.fst →
      Yields fuel n (fun r => r.1 = mem ∧ Built r.2 (created ++ [(mem, parent)])) body) :
    Yields fuel n (fun r => r.1 = mem ∧ Built r.2 (created ++ record r.1 parent))
      (if mem = null then .ok (null, s) else body) := by
  by_cases hmem : mem = null
  · rw [if_pos hmem]
    refine ⟨hmem.symm, ?_⟩
    show Built s (created ++ record null parent)
    rw [record, if_pos rfl, List.append_nil]
    exact h
  · rw [if_neg hmem]
    refine (hbody hmem (hfresh.resolve_left hmem)).mono le_rfl fun r hr => ⟨hr.1, ?_⟩
    rw [record, hr.1, if_neg hmem]
    exact hr.2

variable (hparent : parent = null ∨ parent ∈ created.map Prod.fst)
include hparent

theorem widgetCreate_yields (cls x y width height : Nat) :
    Yields fuel created.length (fun r => r.1 = mem ∧ Built r.2 (created ++ record r.1 parent))
      (widgetCreate fuel s mem cls x y width height parent) := by
  refine h.returning hfresh fuel fun hne hmem => ?_
  refine (h.attach ?_ hmem hne hparent fuel).bind fun t ht => ⟨rfl, ht⟩
  exact (Initialised.of_setWidget rfl rfl).setWidget (fun _ => rfl) fun _ hpaint => hpaint

/-- `window_create` adds the window, below the desktop. -/
theorem windowCreate_yields (nameMem w height : Nat) (hdesktop : s.desktopWindow = parent) :
    Yields fuel created.length (fun r => r.1 = mem ∧ Built r.2 (created ++ record r.1 parent))
      (windowCreate fuel s mem nameMem w height) := by
  refine h.returning hfresh fuel fun hne hmem => ?_
  -- the desktop that `widget_set_parent` is given is the one of the beginning: no assignment changes it
  have hattach : ∀ s', Initialised s s' mem →
      Yields fuel created.length (fun r => r.1 = mem ∧ Built r.2 (created ++ [(mem, parent)]))
        (widgetSetParent fuel s' mem s'.desktopWindow >>= fun t => .ok (mem, t)) := by
    intro s' hs'
    rw [hs'.desktop, hdesktop]
    exact (h.attach hs' hmem hne hparent fuel).bind fun t ht => ⟨rfl, ht⟩
  refine hattach _ ?_
  have hname := windowSetName_widget
  refine Initialised.congr ?_ (hname _ _ _ _).1 (hname _ _ _ _).2
  refine Initialised.setWidget ?_ ?_ ?_
  · refine Initialised.setWidget ?_ (fun _ => rfl) fun _ hpaint => hpaint
    exact .of_update rfl rfl rfl rfl
  · exact fun _ => rfl
  · exact fun _ _ => rfl

/-- `label_create` adds the label; its text is set when it is linked. -/
theorem labelCreate_yields (textMem : Nat) (text : Option (List UInt8)) :
    Yields fuel created.length (fun r => r.1 = mem ∧ Built r.2 (created ++ record r.1 parent))
      (labelCreate fuel s mem textMem text parent) := by
  refine h.returning hfresh fuel fun hne hmem => ?_
  refine (h.attach ?_ hmem hne hparent fuel).bind fun t ht => ?_
  · refine Initialised.setWidget ?_ (fun _ => rfl) fun _ hpaint => hpaint
    exact .of_update rfl rfl rfl rfl
  · -- setting the text keeps the links, as the line space behind it does
    refine (labelSetText_yields t mem text textMem).bind fun u hu => ?_
    exact ⟨rfl, (ht.congr hu).congr (.of_widget_eq rfl rfl)⟩

theorem editCreate_yields (textMem : Nat) :
    Yields fuel created.length (fun r => r.1 = mem ∧ Built r.2 (created ++ record r.1 parent))
      (editCreate fuel s mem textMem parent) := by
  refine h.returning hfresh fuel fun hne hmem => ?_
  refine (h.attach ?_ hmem hne hparent fuel).bind fun t ht => ⟨rfl, ht⟩
  refine Initialised.setWidget ?_ (fun _ => rfl) fun _ hpaint => hpaint
  exact .of_update rfl rfl rfl rfl

/-- `button_create` adds the button and, below it, the label for its caption. -/
theorem buttonCreate_yields {labelMem : Nat} (textMem : Nat) (caption : Option (List UInt8))
    (hlabel : labelMem = null ∨ labelMem ∉ created.map Prod.fst ∧ labelMem ≠ mem) :
    Yields fuel (created.length + 1)
      (fun r => r.1 = mem ∧ Built r.2 (created ++ buttonRecord r.1 parent (r.2.button r.1).label))
      (buttonCreate fuel s mem labelMem textMem caption parent) := by
  unfold buttonCreate
  by_cases hne : mem = null
  · rw [if_pos hne]
    refine ⟨hne.symm, ?_⟩
    show Built s (created ++ buttonRecord null parent _)
    rw [buttonRecord, if_pos rfl, List.append_nil]
    exact h
  · rw [if_neg hne]
    have hmem := hfresh.resolve_left hne
    refine ((h.attach ?_ hmem hne hparent fuel).mono (Nat.le_succ _) fun _ ht => ht).bind fun t ht => ?_
    · refine Initialised.setWidget ?_ (fun _ => rfl) fun _ hpaint => hpaint
      refine Initialised.setWidget ?_ (fun _ => rfl) fun _ hpaint => hpaint
      exact .of_update rfl rfl rfl rfl
    · -- the label is created with the button as its parent
      have hnodes : (created ++ [(mem, parent)]).map Prod.fst = created.map Prod.fst ++ [mem] := List.map_append
      have hfreshLabel : labelMem = null ∨ labelMem ∉ (created ++ [(mem, parent)]).map Prod.fst := by
        refine hlabel.imp_right fun hnew hin => ?_
        rw [hnodes] at hin
        exact (List.mem_append.mp hin).elim hnew.1 fun hlast => hnew.2 (List.mem_singleton.mp hlast)
      have hgiven : mem = null ∨ mem ∈ (created ++ [(mem, parent)]).map Prod.fst := by
        rw [hnodes]
        exact Or.inr (List.mem_append_right _ List.mem_cons_self)
      have hlbl := labelCreate_yields ht hfreshLabel fuel hgiven textMem caption
      rw [List.length_append, List.length_singleton] at hlbl
      refine hlbl.bind fun ⟨lbl, u⟩ hr => ⟨rfl, ?_⟩
      have hu : Built u (created ++ [(mem, parent)] ++ record lbl mem) := hr.2
      have hbutton : buttonRecord mem parent lbl = [(mem, parent)] ++ record lbl mem := if_neg hne
      have hfinal : ∀ v : Widgets, LinksKept u v →
          v.button = Function.update u.button mem { u.button mem with label := lbl } →
          Built v (created ++ buttonRecord mem parent (v.button mem).label) := by
        intro v hv hl
        rw [hl, Function.update_self, hbutton, ← List.append_assoc]
        exact hu.congr hv
      dsimp only
      refine hfinal _ ?_ rfl
      refine LinksKept.setWidget ?_ ?_ lbl
      · exact .of_widget_eq rfl rfl
      · exact fun _ => ⟨rfl, rfl, rfl, rfl⟩

/-- `file_navigator_create` adds the navigator, and lists the directory if it is given one. -/
theorem fileNavigatorCreate_yields (chosen : Dirent → Nat → Widgets → Except Halt Widgets)
    (directory : Option (List UInt8 × Listing)) :
    Yields fuel created.length (fun r => r.1 = mem ∧ Built r.2 (created ++ record r.1 parent))
      (fileNavigatorCreate chosen fuel s mem directory parent) := by
  refine h.returning hfresh fuel fun hne hmem => ?_
  refine ((h.attach ?_ hmem hne hparent fuel).and fun t => widgetSetParent_frame).bind fun t ⟨ht, hframe⟩ => ?_
  · refine Initialised.setWidget ?_ (fun _ => rfl) fun _ hpaint => hpaint
    exact .of_update rfl rfl rfl rfl
  · -- linking has left the navigator as it was initialised
    have hnav := (congrArg (fun u => u.fileNavigator mem) hframe).trans (Function.update_self _ _ _)
    cases directory with
    | none => exact ⟨rfl, ht⟩
    | some d =>
      have hload : (t.fileNavigator mem).Loadable := Or.inr ⟨congrArg FileNavigator.files hnav,
        congrArg FileNavigator.count hnav, congrArg FileNavigator.selected hnav⟩
      refine (show Yields fuel created.length (fun u => Built u (created ++ [(mem, parent)])) _ from ?_).bind
        fun u hu => ⟨rfl, hu⟩
      rw [fileNavigatorSet_eq chosen hload d.1 d.2]
      exact ht.congr (.of_widget_eq rfl rfl)

end

end DiyOS
