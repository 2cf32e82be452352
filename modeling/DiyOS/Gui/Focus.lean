import DiyOS.Gui.Traversal

/-!
# The window of a widget, and the focus (`gui/widgets/widget.c`)

`widget_get_window` reads the parent of its argument in every turn of its loop, and assigns it to another
variable: a widget whose parent is not a window is looked at for ever.

* **`widgetGetWindow_eq`** — all that the function does.
* **`widget_get_window_iff`** — in a forest of widgets, it returns the nearest window above a widget exactly
  when this is the parent.
-/

namespace DiyOS

/-! ## The source -/

/-- `widget_get_window`. -/
def widgetGetWindow : Nat → Widgets → Nat → Except Halt Nat
  | 0, _, _ => .error .loops
  | fuel + 1, s, widget =>
    let parent := (s.widget widget).parent
    -- the function ends behind its loop without a `return`
    if parent = null then .error .undefined
    else if (s.widget parent).cls = wWindow then .ok parent
    else widgetGetWindow fuel s widget

/-- The functions that are stored as `OnFocus` and `OnLooseFocus`. -/
def callFocus (s : Widgets) (widget : Nat) : Handler → Widgets
  | .editFocus => s.setWidget widget fun w => { w with bgcolor := 0xFFFFE0 }
  | .editLooseFocus => s.setWidget widget fun w => { w with bgcolor := 0xFFFFFF }
  | .fileNavigatorFocus => s.setWidget widget fun w => { w with bgcolor := 0xF8F8E0 }
  | .fileNavigatorLooseFocus => s.setWidget widget fun w => { w with bgcolor := 0xF0F0F0 }
  | _ => s

/-- `wnd->focus = widget`. -/
def Widgets.setFocus (s : Widgets) (wnd widget : Nat) : Widgets :=
  { s with window := Function.update s.window wnd { s.window wnd with focus := widget } }

/-- The body of the `if` of `widget_set_focus`. -/
def moveFocus (s : Widgets) (wnd widget : Nat) : Widgets :=
  let focus := (s.window wnd).focus
  let s := if focus ≠ null then ((s.widget focus).onLooseFocus.map (callFocus s focus)).getD s else s
  let s := s.setFocus wnd widget
  ((s.widget widget).onFocus.map (callFocus s widget)).getD s

def widgetSetFocus (fuel : Nat) (s : Widgets) (widget : Nat) : Except Halt Widgets := do
  let wnd ← widgetGetWindow fuel s widget
  .ok (if wnd = null then s else moveFocus s wnd widget)

/-! ## What the loop does

`widget` is never assigned, so that one turn decides: the parent is a window, or the loop does not end. Without a
parent it is not entered, and nothing is returned. -/

section

variable {s : Widgets} {w : Nat}

/-- The window of a widget, where the source finds it. -/
def ParentWindow (s : Widgets) (w : Nat) : Prop :=
  (s.widget w).parent ≠ null ∧ (s.widget (s.widget w).parent).cls = wWindow

/-- One turn decides. -/
theorem widgetGetWindow_eq (s : Widgets) (w fuel : Nat) :
    widgetGetWindow (fuel + 1) s w =
      if (s.widget w).parent = null then .error .undefined
      else if (s.widget (s.widget w).parent).cls = wWindow then .ok (s.widget w).parent
      else .error .loops := by
  induction fuel with
  | zero => rfl
  | succ fuel ih =>
    -- a turn that does not return leaves everything as it was
    rw [widgetGetWindow, ih]
    split
    · rfl
    · split <;> rfl

theorem widgetGetWindow_ok (h : ParentWindow s w) (fuel : Nat) :
    widgetGetWindow (fuel + 1) s w = .ok (s.widget w).parent := by
  rw [widgetGetWindow_eq, if_neg h.1, if_pos h.2]

theorem widgetGetWindow_error (h : ¬ ParentWindow s w) (fuel : Nat) :
    ∃ e, widgetGetWindow (fuel + 1) s w = .error e := by
  rw [widgetGetWindow_eq]
  by_cases hroot : (s.widget w).parent = null
  · exact ⟨.undefined, if_pos hroot⟩
  · rw [if_neg hroot, if_neg fun hcls => h ⟨hroot, hcls⟩]
    exact ⟨.loops, rfl⟩

theorem widgetSetFocus_returns (h : ParentWindow s w) :
    Settles (fun fuel => widgetSetFocus fuel s w) (.ok (moveFocus s (s.widget w).parent w)) := by
  refine settles_const fun fuel => ?_
  unfold widgetSetFocus
  rw [widgetGetWindow_ok h]
  show Except.ok (if (s.widget w).parent = null then s else _) = _
  rw [if_neg h.1]

end

/-! ## The nearest window

Where the parent is not a window, but something above it is, the code should have gone on. -/

section

variable {s : Widgets} {F : Forest Nat} {w : Nat}

/-- The nearest ancestor of the class `W_WINDOW`. -/
def nearestWindow (F : Forest Nat) (s : Widgets) (w : Nat) : Option Nat :=
  (F.ancestors w).find? fun a => (s.widget a).cls = wWindow

theorem nearestWindow_of_parent
    (h : F.Threaded null (fun w => (s.widget w).parent) (fun w => (s.widget w).child) fun w => (s.widget w).next)
    (hw : w ∈ F.nodes) (hparent : ParentWindow s w) : nearestWindow F s w = some (s.widget w).parent := by
  have hup : F.parent w = some (s.widget w).parent := by
    refine under_of_getD ?_ hparent.1
    exact (h.parent w hw).symm
  unfold nearestWindow
  rw [F.ancestors_of_some hup]
  exact List.find?_cons_of_pos (decide_eq_true hparent.2)

/-- **Finding the enclosing window.** For every widget of a forest, `widget_get_window` returns the nearest
window above it, or the null pointer if there is none, and `widget_set_focus` returns, if and only if the
parent of the widget is a window. -/
theorem widget_get_window_iff
    (h : F.Threaded null (fun w => (s.widget w).parent) (fun w => (s.widget w).child) fun w => (s.widget w).next)
    (hw : w ∈ F.nodes) :
    (Settles (fun fuel => widgetGetWindow fuel s w) (.ok ((nearestWindow F s w).getD null))
        ∧ ∃ s', Settles (fun fuel => widgetSetFocus fuel s w) (.ok s'))
      ↔ (s.widget w).parent ≠ null ∧ (s.widget (s.widget w).parent).cls = wWindow := by
  refine ⟨fun ⟨⟨enough, hreturns⟩, _⟩ => ?_, fun hparent => ⟨?_, _, widgetSetFocus_returns hparent⟩⟩
  · by_contra hparent
    obtain ⟨e, herror⟩ := widgetGetWindow_error hparent enough
    cases herror.symm.trans (hreturns (enough + 1) (Nat.le_succ enough))
  · rw [nearestWindow_of_parent h hw hparent]
    exact settles_const fun fuel => widgetGetWindow_ok hparent fuel

end

/-- A desktop, a window on it, a button in the window, and the label of the button. -/
theorem buttonWindow_run : ∃ tr g, Run (createStep fun _ _ s => .ok s) ⟨noWidgets, []⟩ tr g
    ∧ g.created = [(8, null), (16, 8), (24, 16), (32, 24)] ∧ (g.widgets.widget 16).cls = wWindow
    ∧ (g.widgets.widget 24).cls = wButton := by
  let chosen : Dirent → Nat → Widgets → Except Halt Widgets := fun _ _ s => .ok s
  have hdesktop : createStep chosen ⟨noWidgets, []⟩ (.widget 8 wWidget 0 0 640 463 null) _ :=
    ⟨⟨Or.inr (by decide), Or.inl rfl⟩, 3, rfl⟩
  have hwindow := ((Run.nil.snoc hdesktop).snoc (e := Create.desktop 8) ⟨Or.inr (by decide), 3, rfl⟩).snoc
    (e := Create.window 16 null 300 300) ⟨Or.inr (by decide), 3, rfl⟩
  have hbutton := hwindow.snoc (e := Create.button 24 32 40 (some [103, 111]) 16)
    ⟨⟨Or.inr (by decide), Or.inr ⟨by decide, by decide⟩, Or.inr (by decide)⟩, 3, rfl⟩
  exact ⟨_, _, hbutton, rfl, rfl, rfl⟩

/-- The button. -/
theorem widget_get_window_button : ∃ g : CreateState, g.created = [(8, null), (16, 8), (24, 16), (32, 24)]
    ∧ Settles (fun fuel => widgetGetWindow fuel g.widgets 24) (.ok 16) := by
  obtain ⟨tr, g, hrun, hcreated, hcls, _⟩ := buttonWindow_run
  obtain ⟨F, hF, hlisted⟩ := built_run rfl hrun
  have hforest : WidgetForest g := Built.forest ⟨F, hF, hlisted⟩
  have hparent : (g.widgets.widget 24).parent = 16 := hforest.parent 24 16 (by rw [hcreated]; decide)
  have hw : 24 ∈ F.nodes := by
    rw [← nodes_of_created hlisted, hcreated]
    decide
  have hwindow : ParentWindow g.widgets 24 := by
    unfold ParentWindow
    rw [hparent]
    exact ⟨by decide, hcls⟩
  have hreturns := ((widget_get_window_iff hF.threaded hw).mpr hwindow).1
  rw [nearestWindow_of_parent hF.threaded hw hwindow, hparent] at hreturns
  exact ⟨g, hcreated, hreturns⟩

/-- The label of the button, for which the loop does not end. -/
theorem widget_get_window_label : ∃ (tr : List (Transition CreateState Create)) (g : CreateState) (F : Forest Nat),
    Run (createStep fun _ _ s => .ok s) ⟨noWidgets, []⟩ tr g ∧ Holds g.widgets F ∧ 32 ∈ F.nodes
    ∧ nearestWindow F g.widgets 32 = some 16 ∧ ∀ fuel, widgetGetWindow fuel g.widgets 32 = .error .loops := by
  obtain ⟨tr, g, hrun, hcreated, hwindow, hbutton⟩ := buttonWindow_run
  obtain ⟨F, hF, hlisted⟩ := built_run rfl hrun
  have hforest : WidgetForest g := Built.forest ⟨F, hF, hlisted⟩
  have hgiven : ∀ w p, (w, p) ∈ g.created → p ≠ null → F.parent w = some p := fun w p hmem hne =>
    under_of_getD (given_of_created hlisted hmem).2 hne
  have hparent : (g.widgets.widget 32).parent = 24 := hforest.parent 32 24 (by rw [hcreated]; decide)
  refine ⟨tr, g, F, hrun, hF, ?_, ?_, ?_⟩
  · exact (given_of_created hlisted (by rw [hcreated]; decide : (32, 24) ∈ g.created)).1
  · unfold nearestWindow
    rw [F.ancestors_of_some (hgiven 32 24 (by rw [hcreated]; decide) (by decide)),
      F.ancestors_of_some (hgiven 24 16 (by rw [hcreated]; decide) (by decide)),
      List.find?_cons_of_neg (by rw [hbutton]; decide), List.find?_cons_of_pos (by rw [hwindow]; decide)]
  · intro fuel
    cases fuel with
    | zero => rfl
    | succ fuel =>
      rw [widgetGetWindow_eq, hparent, if_neg (by decide), if_neg (by rw [hbutton]; decide)]

end DiyOS
