import DiyOS.Gui.ActiveWindow
import DiyOS.Lib.FirstHit
import Mathlib.Data.List.Find

/-!
# Mouse events (`gui/gui.c`, `gui/widgets/window.c`, `gui/util/point.c`)

`gui_main` gives a mouse event to the active window if the pointer is inside it, and else to the first child
of the desktop that the pointer is inside. A window gives it to the first such child of its own.

* **`guiMouse_settles`**, **`windowMouseEvent_settles`** — who gets the event.
* **`guiDraw_settles`**, **`paintedLast_eq`** — which window is drawn last at a point.
* **`window_clicks_iff`** — when the child that gets the event is the one that is drawn at the pointer.
* **`topmost_window_iff`** — when the window that gets the event is the one that is drawn last.
-/

namespace DiyOS

open Word

/-! ## The source

The event goes to the active window if the pointer is inside, and otherwise to the first of the other windows
that it is inside. The window passes it on to one of its children. -/

/-- `point_is_inside`. -/
def pointIsInside (s : Widgets) (widget x y : Nat) : Bool :=
  widget ≠ null ∧ int32 (s.widget widget).x ≤ int32 x ∧ int32 (s.widget widget).y ≤ int32 y
    ∧ int32 ((s.widget widget).x + (s.widget widget).w) ≥ int32 x
    ∧ int32 ((s.widget widget).y + (s.widget widget).h) ≥ int32 y

/-- A call of a widget's `OnMouseEvent`. -/
structure MouseCall where
  widget : Nat
  handler : Handler
  x : Nat
  y : Nat
  flags : Nat
  deriving DecidableEq

/-- The call with the pointer's place in the widget, if the widget has the callback. -/
def mouseCall (s : Widgets) (widget x y flags : Nat) : Option MouseCall :=
  (s.widget widget).onMouseEvent.map fun handler =>
    ⟨widget, handler, sub32 x (s.widget widget).x, sub32 y (s.widget widget).y, flags⟩

/-- The loops of `gui_main` and `window_mouse_event` over siblings: the call that they make before they
break. The former one skips the active window. -/
def mouseEventLoop : Nat → Widgets → Nat → Nat → Nat → Nat → Nat → Except Halt (Option MouseCall)
  | 0, _, _, _, _, _, _ => .error .loops
  | fuel + 1, s, skip, chld, x, y, flags =>
    if chld = null then .ok none
    else if chld ≠ skip ∧ pointIsInside s chld x y then .ok (mouseCall s chld x y flags)
    else mouseEventLoop fuel s skip (s.widget chld).next x y flags

/-- `window_mouse_event`, and the call that it makes. -/
def windowMouseEvent (fuel : Nat) (s : Widgets) (widget x y flags : Nat) :
    Except Halt (Widgets × Option MouseCall) :=
  (if flags &&& 1 ≠ 0 then guiSetActiveWindow fuel s widget else .ok s) >>= fun s => do
    let call ← mouseEventLoop fuel s null (s.widget widget).child x y flags
    .ok (s, call)

/-- The part of `gui_main` for a mouse packet, once the pointer has been moved: the call of an `OnMouseEvent`
that it makes. -/
def guiMouse (fuel : Nat) (s : Widgets) (pointerX pointerY flags : Nat) : Except Halt (Option MouseCall) := do
  let window ← guiGetActiveWindow fuel s
  if window = null then .ok none
  else if pointIsInside s window pointerX pointerY then
    -- the callback of the active window is called without a test
    match mouseCall s window pointerX pointerY flags with
    | none => .error .undefined
    | some call => .ok (some call)
  else mouseEventLoop fuel s window (s.widget s.desktopWindow).child pointerX pointerY flags

/-- `gui_main` together with `window_mouse_event`: the call that a window makes when it gets the event. -/
def guiWindowMouse (fuel : Nat) (s : Widgets) (pointerX pointerY flags : Nat) :
    Except Halt (Option MouseCall) := do
  match ← guiMouse fuel s pointerX pointerY flags with
  | some ⟨widget, .windowMouseEvent, x, y, flags⟩ => do
    let (_, call) ← windowMouseEvent fuel s widget x y flags
    .ok call
  | _ => .ok none

/-- `gui_draw`: the visits of its two calls of `widget_draw`. The taskbar and the pointer come after them. -/
def guiDraw (fuel : Nat) (s : Widgets) : Except Halt (List Visit) := do
  let visits ← widgetDraw fuel s s.desktopWindow
  let window ← guiGetActiveWindow fuel s
  let again ← widgetDraw fuel s window
  .ok (visits ++ again)

/-! ## Who gets the event

The loops end at the first sibling that the pointer is inside, whether or not it has a callback. -/

/-- The first of the siblings that the point is inside. -/
def firstInside (s : Widgets) (l : List Nat) (x y : Nat) : Option Nat := l.find? fun c => pointIsInside s c x y

section

variable {s : Widgets} {a skip x y flags : Nat} {l : List Nat}

/-- The walk calls the first that is inside, but for the one that was asked before. -/
theorem mouseEventLoop_eq (hl : Siblings s a l) (hskip : ¬ pointIsInside s skip x y) {fuel : Nat}
    (hfuel : l.length < fuel) :
    mouseEventLoop fuel s skip a x y flags
      = .ok ((firstInside s l x y).bind fun c => mouseCall s c x y flags) := by
  induction fuel generalizing a l with
  | zero => exact absurd hfuel (Nat.not_lt_zero _)
  | succ fuel ih =>
    rw [mouseEventLoop]
    cases l with
    | nil => exact if_pos hl
    | cons c l =>
      obtain ⟨rfl, hne, hrest⟩ := hl
      rw [if_neg hne]
      by_cases hin : pointIsInside s a x y
      · have hother : a ≠ skip := by
          rintro rfl
          exact hskip hin
        have hfirst : firstInside s (a :: l) x y = some a := List.find?_cons_of_pos hin
        rw [if_pos ⟨hother, hin⟩, hfirst]
        rfl
      · have hfirst : firstInside s (a :: l) x y = firstInside s l x y := List.find?_cons_of_neg hin
        rw [if_neg fun h => hin h.2, hfirst]
        exact ih hrest (Nat.lt_of_succ_lt_succ hfuel)

theorem firstInside_some {c : Nat} (h : firstInside s l x y = some c) : c ∈ l ∧ pointIsInside s c x y :=
  ⟨List.mem_of_find?_eq_some h, @List.find?_some Nat (fun c => pointIsInside s c x y) c l h⟩

theorem not_inside_null (s : Widgets) (x y : Nat) : ¬ pointIsInside s null x y := by
  unfold pointIsInside
  rw [decide_eq_true_eq]
  exact fun h => h.1 rfl

end

/-- A window as `window_create` leaves it. -/
structure IsWindow (s : Widgets) (w : Nat) : Prop where
  cls : (s.widget w).cls = wWindow
  onMouseEvent : (s.widget w).onMouseEvent = some .windowMouseEvent

/-- The links of the widgets hold `F`, and the windows on the desktop are as `window_create` leaves them. -/
structure OnDesktop (s : Widgets) (F : Forest Nat) : Prop where
  holds : Holds s F
  desktop : s.desktopWindow ∈ F.nodes
  window : ∀ w ∈ F.children s.desktopWindow, (s.widget w).cls = wWindow → IsWindow s w

/-- The child of the desktop that `gui_main` turns to, when `active` is the active window. -/
def mouseTarget (s : Widgets) (F : Forest Nat) (active x y : Nat) : Option Nat :=
  if active = null then none
  else if pointIsInside s active x y then some active
  else firstInside s (F.children s.desktopWindow) x y

section

variable {s : Widgets} {F : Forest Nat} {active w c x y : Nat}

theorem OnDesktop.ne (h : OnDesktop s F) : s.desktopWindow ≠ null := by
  intro heq
  exact h.holds.threaded.nil_not_mem (heq ▸ h.desktop)

theorem OnDesktop.parent (h : OnDesktop s F) (hw : w ∈ F.children s.desktopWindow) :
    (s.widget w).parent = s.desktopWindow := by
  have hunder := F.mem_children.mp hw
  rw [h.holds.threaded.parent w (F.mem_of_parent hunder), hunder]
  rfl

theorem OnDesktop.getActive (h : OnDesktop s F) : Settles (fun fuel => guiGetActiveWindow fuel s)
    (.ok (((F.children s.desktopWindow).find? fun w => IsActive s w).getD null)) := by
  refine ⟨(F.children s.desktopWindow).length + 1, fun fuel hfuel => ?_⟩
  exact (if_neg h.ne).trans (getActiveLoop_eq (h.holds.threaded.child _ h.desktop) hfuel)

/-- The active window is a child of the desktop. -/
theorem OnDesktop.active_mem (h : OnDesktop s F)
    (hactive : Settles (fun fuel => guiGetActiveWindow fuel s) (.ok active)) (hne : active ≠ null) :
    active ∈ F.children s.desktopWindow ∧ IsWindow s active := by
  have heq := hactive.unique h.getActive
  cases hfind : (F.children s.desktopWindow).find? fun w => IsActive s w with
  | none =>
    rw [hfind] at heq
    exact absurd (Except.ok.inj heq) hne
  | some w =>
    rw [hfind] at heq
    cases heq
    have hmem := List.mem_of_find?_eq_some hfind
    have hset : IsActive s w := by simpa using List.find?_some hfind
    exact ⟨hmem, h.window w hmem hset.1⟩

/-- A desktop whose record has no parent is a root of the forest. -/
theorem OnDesktop.root (h : OnDesktop s F) (hparent : (s.widget s.desktopWindow).parent = null) :
    F.parent s.desktopWindow = none := by
  rw [h.holds.threaded.parent _ h.desktop] at hparent
  cases hroot : F.parent s.desktopWindow with
  | none => rfl
  | some p =>
    -- a parent is a widget of the forest, and the null pointer is none
    rw [hroot, Option.getD_some] at hparent
    exact absurd (F.mem_of_under hroot) (hparent ▸ h.holds.threaded.nil_not_mem)

/-- **`gui_main`** calls the one it turns to. -/
theorem guiMouse_settles (h : OnDesktop s F)
    (hactive : Settles (fun fuel => guiGetActiveWindow fuel s) (.ok active)) (x y flags : Nat) :
    Settles (fun fuel => guiMouse fuel s x y flags)
      (.ok ((mouseTarget s F active x y).bind fun w => mouseCall s w x y flags)) := by
  refine hactive.bind ?_
  unfold mouseTarget
  by_cases hnone : active = null
  · rw [if_pos hnone]
    exact settles_const fun _ => if_pos hnone
  · rw [if_neg hnone]
    obtain ⟨-, hwindow⟩ := h.active_mem hactive hnone
    by_cases hin : pointIsInside s active x y
    · have hcall : ∃ call, mouseCall s active x y flags = some call := by
        unfold mouseCall
        rw [hwindow.onMouseEvent]
        exact ⟨_, rfl⟩
      obtain ⟨call, hcall⟩ := hcall
      rw [if_pos hin]
      refine settles_const fun fuel => ?_
      rw [if_neg hnone, if_pos hin]
      simp only [Option.bind_some, hcall]
    · rw [if_neg hin]
      refine ⟨(F.children s.desktopWindow).length + 1, fun fuel hfuel => ?_⟩
      refine (if_neg hnone).trans ((if_neg hin).trans ?_)
      exact mouseEventLoop_eq (h.holds.threaded.child _ h.desktop) hin hfuel

/-- **`window_mouse_event`** calls the first of the window's children that the point is inside. -/
theorem windowMouseEvent_settles (h : OnDesktop s F) (hw : w ∈ F.nodes) (x y flags : Nat) :
    ∃ s', Settles (fun fuel => windowMouseEvent fuel s w x y flags)
      (.ok (s', (firstInside s (F.children w) x y).bind fun c => mouseCall s c x y flags)) := by
  have hsiblings := h.holds.threaded.child _ h.desktop
  -- which window is active does not matter to the loop
  have hloop : ∀ s' : Widgets, s'.widget = s.widget →
      Settles (fun fuel => mouseEventLoop fuel s' null (s'.widget w).child x y flags)
        (.ok ((firstInside s (F.children w) x y).bind fun c => mouseCall s c x y flags)) := by
    intro s' hwidget
    have hl : Siblings s' (s'.widget w).child (F.children w) := by
      unfold Siblings
      rw [hwidget]
      exact h.holds.threaded.child w hw
    have hinside : ∀ c, pointIsInside s' c x y = pointIsInside s c x y := fun c => by
      unfold pointIsInside
      rw [hwidget]
    have hcall : ∀ c, mouseCall s' c x y flags = mouseCall s c x y flags := fun c => by
      unfold mouseCall
      rw [hwidget]
    refine ⟨(F.children w).length + 1, fun fuel hfuel => ?_⟩
    refine (mouseEventLoop_eq hl (not_inside_null s' x y) hfuel).trans ?_
    unfold firstInside
    simp only [hinside, hcall]
  have hset : ∃ s' : Widgets, s'.widget = s.widget ∧ Settles
      (fun fuel => if flags &&& 1 ≠ 0 then guiSetActiveWindow fuel s w else .ok s) (.ok s') := by
    by_cases hflag : flags &&& 1 ≠ 0
    · refine ⟨s.activated (F.children s.desktopWindow) w, rfl, (F.children s.desktopWindow).length + 1, ?_⟩
      exact fun fuel hfuel => (if_pos hflag).trans ((if_neg h.ne).trans (setActiveLoop_eq hsiblings hfuel))
    · exact ⟨s, rfl, settles_const fun _ => if_neg hflag⟩
  obtain ⟨s', hwidget, hset⟩ := hset
  exact ⟨s', hset.bind ((hloop s' hwidget).bind (settles_const fun _ => rfl))⟩

/-- `gui_main` turns to a child of the desktop. -/
theorem mouseTarget_mem (h : OnDesktop s F)
    (hactive : Settles (fun fuel => guiGetActiveWindow fuel s) (.ok active))
    (htarget : mouseTarget s F active x y = some w) :
    w ∈ F.children s.desktopWindow ∧ pointIsInside s w x y := by
  unfold mouseTarget at htarget
  split at htarget
  · cases htarget
  · next hne =>
    split at htarget
    · next hin =>
      cases htarget
      exact ⟨(h.active_mem hactive hne).1, hin⟩
    · exact firstInside_some htarget

/-! ## The children of a window

A child is asked with the place of the pointer in the window, and compares it with its own position. It is drawn
from its absolute position on, to which the paddings of all its ancestors are added. So there are pixels that it
does not take, and others that are not its own. -/

/-- The pixel is one of those that the child's rectangle fills. -/
def DrawnAt (s : Widgets) (c x y : Nat) : Prop :=
  ∃ x0 y0, Settles (fun fuel => widgetAbsoluteXy fuel s c) (.ok (x0, y0))
    ∧ int32 x0 ≤ int32 x ∧ int32 x < int32 x0 + int32 (s.widget c).w
    ∧ int32 y0 ≤ int32 y ∧ int32 y < int32 y0 + int32 (s.widget c).h

theorem drawnAt_iff {x0 y0 : Nat} (hxy : Settles (fun fuel => widgetAbsoluteXy fuel s c) (.ok (x0, y0))) :
    DrawnAt s c x y ↔ int32 x0 ≤ int32 x ∧ int32 x < int32 x0 + int32 (s.widget c).w
      ∧ int32 y0 ≤ int32 y ∧ int32 y < int32 y0 + int32 (s.widget c).h := by
  refine ⟨fun ⟨x0', y0', hxy', hin⟩ => ?_, fun hin => ⟨x0, y0, hxy, hin⟩⟩
  cases hxy.unique hxy'
  exact hin

/-- The first of the children of `w` that the point is inside, once it is counted from the corner of `w`. -/
def childInside (s : Widgets) (F : Forest Nat) (w x y : Nat) : Option Nat :=
  firstInside s (F.children w) (sub32 x (s.widget w).x) (sub32 y (s.widget w).y)

/-- The pointer is where `gui_main` turns to the window and the window to its child `c`, which has the
callback. -/
structure Clicked (s : Widgets) (F : Forest Nat) (active w c x y : Nat) : Prop where
  window : mouseTarget s F active x y = some w
  child : childInside s F w x y = some c
  onMouseEvent : (s.widget c).onMouseEvent ≠ none

/-- The event is given to a child of the window if and only if the child is drawn at the pointer. -/
def ClicksLand (s : Widgets) (F : Forest Nat) (w x y flags : Nat) : Prop :=
  ∃ call, Settles (fun fuel => guiWindowMouse fuel s x y flags) (.ok call)
    ∧ ∀ c ∈ F.children w, (∃ e ∈ call, e.widget = c) ↔ DrawnAt s c x y

theorem mouseCall_widget {flags : Nat} {e : MouseCall} (h : mouseCall s c x y flags = some e) :
    e.widget = c ∧ (s.widget c).onMouseEvent = some e.handler := by
  obtain ⟨handler, hhandler, heq⟩ := Option.map_eq_some_iff.mp h
  cases heq
  exact ⟨rfl, hhandler⟩

theorem mouseCall_isSome {flags : Nat} (h : (s.widget c).onMouseEvent ≠ none) :
    ∃ e, mouseCall s c x y flags = some e := by
  obtain ⟨handler, hhandler⟩ := Option.ne_none_iff_exists'.mp h
  exact ⟨_, congrArg _ hhandler⟩

/-- A window that gets the event gives it to a child. -/
theorem guiWindowMouse_settles (h : OnDesktop s F)
    (hactive : Settles (fun fuel => guiGetActiveWindow fuel s) (.ok active)) (x y flags : Nat) :
    ∃ call, Settles (fun fuel => guiWindowMouse fuel s x y flags) (.ok call)
      ∧ ∀ w, IsWindow s w → ∀ c ∈ F.children w, (∃ e ∈ call, e.widget = c) ↔ Clicked s F active w c x y := by
  have hmouse := guiMouse_settles h hactive x y flags
  -- no window gets the event
  have hnobody : (∀ w, IsWindow s w → mouseTarget s F active x y ≠ some w) →
      ∀ w, IsWindow s w → ∀ c ∈ F.children w,
        (∃ e ∈ (none : Option MouseCall), e.widget = c) ↔ Clicked s F active w c x y :=
    fun hnone w hw _ _ => iff_of_false (by simp) fun hclick => hnone w hw hclick.window
  cases htarget : mouseTarget s F active x y with
  | none =>
    rw [htarget] at hmouse
    refine ⟨none, hmouse.bind (settles_const fun _ => rfl), hnobody fun w _ => ?_⟩
    rw [htarget]
    exact (Option.some_ne_none w).symm
  | some v =>
    rw [htarget, Option.bind_some] at hmouse
    unfold mouseCall at hmouse
    by_cases hv : (s.widget v).onMouseEvent = some .windowMouseEvent
    · rw [hv, Option.map_some] at hmouse
      have hmem := F.mem_of_parent (F.mem_children.mp (mouseTarget_mem h hactive htarget).1)
      obtain ⟨s', hwindow⟩ := windowMouseEvent_settles h hmem (sub32 x (s.widget v).x) (sub32 y (s.widget v).y)
        flags
      refine ⟨_, hmouse.bind (hwindow.bind (settles_const fun _ => rfl)), fun w hw c hc => ?_⟩
      constructor
      · rintro ⟨e, he, rfl⟩
        obtain ⟨d, hd, hcall⟩ := Option.bind_eq_some_iff.mp he
        obtain ⟨hwidget, hhandler⟩ := mouseCall_widget hcall
        rw [hwidget] at hc ⊢
        -- a child has one parent
        obtain rfl : v = w := F.under_unique (F.mem_children.mp (firstInside_some hd).1) (F.mem_children.mp hc)
        exact ⟨htarget, hd, by rw [hhandler]; exact Option.some_ne_none _⟩
      · rintro ⟨hwtarget, hchild, hhandler⟩
        obtain rfl : v = w := Option.some.inj (htarget.symm.trans hwtarget)
        obtain ⟨e, he⟩ := @mouseCall_isSome s c (sub32 x (s.widget v).x) (sub32 y (s.widget v).y) flags hhandler
        exact ⟨e, Option.bind_eq_some_iff.mpr ⟨c, hchild, he⟩, (mouseCall_widget he).1⟩
    · have hnone : ∀ w, IsWindow s w → mouseTarget s F active x y ≠ some w := by
        intro w hw heq
        rw [htarget] at heq
        exact hv (Option.some.inj heq ▸ hw.onMouseEvent)
      refine ⟨none, hmouse.bind ?_, hnobody hnone⟩
      cases hhandler : (s.widget v).onMouseEvent with
      | none => exact settles_const fun _ => rfl
      | some handler =>
        cases handler <;> first | exact absurd hhandler hv | exact settles_const fun _ => rfl

theorem clicksLand_iff (h : OnDesktop s F)
    (hactive : Settles (fun fuel => guiGetActiveWindow fuel s) (.ok active)) (hw : IsWindow s w)
    (x y flags : Nat) :
    ClicksLand s F w x y flags ↔ ∀ c ∈ F.children w, Clicked s F active w c x y ↔ DrawnAt s c x y := by
  obtain ⟨call, hcall, hgets⟩ := guiWindowMouse_settles h hactive x y flags
  constructor
  · rintro ⟨call', hcall', hall⟩ c hc
    cases hcall.unique hcall'
    exact (hgets w hw c hc).symm.trans (hall c hc)
  · exact fun hall => ⟨call, hcall, fun c hc => (hgets w hw c hc).trans (hall c hc)⟩

/-! ### The pixels of a window

The pointer is at the pixel `(i, j)` of the window, counted from the window's corner. -/

/-- How far to the right of the corner of a window its children are drawn. -/
def drawnRight (s : Widgets) (w : Nat) : Nat :=
  (s.widget w).paddingLeft + (s.widget s.desktopWindow).x + (s.widget s.desktopWindow).paddingLeft

/-- How far below the corner of a window its children are drawn. -/
def drawnBelow (s : Widgets) (w : Nat) : Nat :=
  (s.widget w).paddingTop + (s.widget s.desktopWindow).y + (s.widget s.desktopWindow).paddingTop

/-- The pixels that the child `c` of `w` fills. -/
def FillsPixel (s : Widgets) (w c i j : Nat) : Prop :=
  ((s.widget c).x + drawnRight s w ≤ i ∧ i < (s.widget c).x + drawnRight s w + (s.widget c).w)
    ∧ (s.widget c).y + drawnBelow s w ≤ j ∧ j < (s.widget c).y + drawnBelow s w + (s.widget c).h

/-- The pixels that `point_is_inside` takes for those of the child `c`. -/
def takesPixel (s : Widgets) (i j c : Nat) : Bool :=
  ((s.widget c).x ≤ i ∧ i ≤ (s.widget c).x + (s.widget c).w)
    ∧ (s.widget c).y ≤ j ∧ j ≤ (s.widget c).y + (s.widget c).h

/-- The desktop has no parent, and no coordinate of the window's children or of the pointer is negative or
overflows. -/
structure InPixels (s : Widgets) (F : Forest Nat) (w i j : Nat) : Prop where
  root : F.parent s.desktopWindow = none
  right : ∀ c ∈ F.children w,
    (s.widget w).x + (s.widget c).x + (s.widget c).w + drawnRight s w < 2147483648
  below : ∀ c ∈ F.children w,
    (s.widget w).y + (s.widget c).y + (s.widget c).h + drawnBelow s w < 2147483648
  pointerX : (s.widget w).x + i < 2147483648
  pointerY : (s.widget w).y + j < 2147483648

/-- **The two areas.** A child is drawn to the right of where it is hit by the paddings, and below by the
paddings, while it is hit one pixel further than its size. -/
theorem drawn_and_hit (h : OnDesktop s F) (hw : w ∈ F.children s.desktopWindow) (hc : c ∈ F.children w) {i j : Nat}
    (hpixels : InPixels s F w i j) :
    (DrawnAt s c ((s.widget w).x + i) ((s.widget w).y + j) ↔ FillsPixel s w c i j)
      ∧ (pointIsInside s c (sub32 ((s.widget w).x + i) (s.widget w).x)
          (sub32 ((s.widget w).y + j) (s.widget w).y) = takesPixel s i j c) := by
  obtain ⟨hroot, hright, hbelow, hi, hj⟩ := hpixels
  have hx := hright c hc
  have hy := hbelow c hc
  have hcw := F.mem_children.mp hc
  have hwd := F.mem_children.mp hw
  constructor
  · -- the ancestors of the child, whose places and paddings are added up, are the window and the desktop
    have habove : F.ancestors c = [w, s.desktopWindow] := by
      rw [F.ancestors_of_some hcw, F.ancestors_of_some hwd, F.ancestors_of_none hroot]
    have hxy : Settles (fun fuel => widgetAbsoluteXy fuel s c) _ :=
      addAncestors_eq h.holds (F.mem_of_parent hcw) (s.widget c).x (s.widget c).y
    unfold drawnRight at hx
    unfold drawnBelow at hy
    rw [habove] at hxy
    unfold offset at hxy
    simp only [List.map_cons, List.map_nil, List.sum_cons, List.sum_nil] at hxy
    rw [u32_of_lt (by omega), u32_of_lt (by omega)] at hxy
    rw [drawnAt_iff hxy, int32_of_lt (by omega), int32_of_lt (by omega), int32_of_lt (by omega),
      int32_of_lt (by omega), int32_of_lt (by omega), int32_of_lt (by omega)]
    unfold FillsPixel drawnRight drawnBelow
    omega
  · have hne : c ≠ null := by
      rintro rfl
      exact h.holds.threaded.nil_not_mem (F.mem_of_parent hcw)
    have hdiff : ∀ a k, a + k < 2147483648 → sub32 (a + k) a = k := fun a k hk => by
      unfold sub32 u32
      omega
    unfold pointIsInside takesPixel
    rw [hdiff _ _ hi, hdiff _ _ hj, int32_of_lt (by omega), int32_of_lt (by omega),
      int32_of_lt (by omega), int32_of_lt (by omega), int32_of_lt (by omega), int32_of_lt (by omega)]
    rw [decide_eq_decide]
    constructor
    · rintro ⟨_, _, _, _, _⟩
      omega
    · exact fun ⟨_, _⟩ => ⟨hne, by omega, by omega, by omega, by omega⟩

/-- The child `c` gets the event at the pixel `(i, j)` of the window: the pointer is where `gui_main` turns to
the window, `c` is the first child that the pixel is taken for, and it has the callback. -/
structure HitPixel (s : Widgets) (F : Forest Nat) (active w c i j : Nat) : Prop where
  window : mouseTarget s F active ((s.widget w).x + i) ((s.widget w).y + j) = some w
  child : (F.children w).find? (takesPixel s i j) = some c
  onMouseEvent : (s.widget c).onMouseEvent ≠ none

/-- The first child by `point_is_inside` is the first one that the pixel is taken for. -/
theorem clicked_iff_hitPixel (h : OnDesktop s F) (hw : w ∈ F.children s.desktopWindow) {i j : Nat}
    (hpixels : InPixels s F w i j) :
    Clicked s F active w c ((s.widget w).x + i) ((s.widget w).y + j) ↔ HitPixel s F active w c i j := by
  have hchild : childInside s F w ((s.widget w).x + i) ((s.widget w).y + j)
      = (F.children w).find? (takesPixel s i j) :=
    List.find?_congr fun d hd => (drawn_and_hit h hw hd hpixels).2
  exact ⟨fun ⟨hwindow, hfirst, hhandler⟩ => ⟨hwindow, hchild ▸ hfirst, hhandler⟩,
    fun ⟨hwindow, hfirst, hhandler⟩ => ⟨hwindow, hchild ▸ hfirst, hhandler⟩⟩

/-- One child gets the event, and the children that are drawn are disjoint: so the two are the same child,
or there is neither. -/
theorem clicksLand_iff_or (h : OnDesktop s F)
    (hactive : Settles (fun fuel => guiGetActiveWindow fuel s) (.ok active)) (hw : w ∈ F.children s.desktopWindow)
    (hcls : (s.widget w).cls = wWindow)
    (hdisjoint : ∀ c ∈ F.children w, ∀ d ∈ F.children w, c ≠ d → ∀ x y, ¬ (DrawnAt s c x y ∧ DrawnAt s d x y))
    (x y flags : Nat) :
    ClicksLand s F w x y flags
      ↔ (∃ c ∈ F.children w, DrawnAt s c x y ∧ Clicked s F active w c x y)
        ∨ ∀ c ∈ F.children w, ¬ DrawnAt s c x y ∧ ¬ Clicked s F active w c x y := by
  rw [clicksLand_iff h hactive (h.window w hw hcls)]
  constructor
  · intro hall
    by_cases hdrawn : ∃ c ∈ F.children w, DrawnAt s c x y
    · obtain ⟨c, hc, hat⟩ := hdrawn
      exact Or.inl ⟨c, hc, hat, (hall c hc).mpr hat⟩
    · have hnot : ∀ c ∈ F.children w, ¬ DrawnAt s c x y := fun c hc hat => hdrawn ⟨c, hc, hat⟩
      exact Or.inr fun c hc => ⟨hnot c hc, fun hclick => hnot c hc ((hall c hc).mp hclick)⟩
  · rintro (⟨c, hc, hat, hclick⟩ | hnone) d hd
    · by_cases hcd : c = d
      · subst hcd
        exact iff_of_true hclick hat
      · refine iff_of_false (fun hother => hcd ?_) fun hother => hdisjoint c hc d hd hcd x y ⟨hat, hother⟩
        exact Option.some.inj (hclick.child.symm.trans hother.child)
    · exact iff_of_false (hnone d hd).2 (hnone d hd).1

/-- **Clicks and pixels.** For every window on the desktop and every pixel at which no two of its children
are drawn, the event is given to the child that is drawn there, or to none if there is none, if and only if
one of two conditions holds: a child is drawn there, the window is the one that `gui_main` turns to, and the
child is the first one for which `point_is_inside` holds of the pointer's place in the window, and has the
callback; or no child is drawn there, and there is no such child. Where no coordinate overflows, these are
conditions on the pixel `(i, j)` of the window: which children fill it, and which of them is the first that
it is taken for. -/
theorem window_clicks_iff (h : OnDesktop s F)
    (hactive : Settles (fun fuel => guiGetActiveWindow fuel s) (.ok active)) (hw : w ∈ F.children s.desktopWindow)
    (hcls : (s.widget w).cls = wWindow)
    (hdisjoint : ∀ c ∈ F.children w, ∀ d ∈ F.children w, c ≠ d → ∀ x y, ¬ (DrawnAt s c x y ∧ DrawnAt s d x y))
    (x y flags : Nat) :
    (ClicksLand s F w x y flags
      ↔ (∃ c ∈ F.children w, DrawnAt s c x y ∧ Clicked s F active w c x y)
        ∨ ∀ c ∈ F.children w, ¬ DrawnAt s c x y ∧ ¬ Clicked s F active w c x y)
    ∧ ∀ i j, InPixels s F w i j → x = (s.widget w).x + i → y = (s.widget w).y + j →
      (ClicksLand s F w x y flags
        ↔ (∃ c ∈ F.children w, FillsPixel s w c i j ∧ HitPixel s F active w c i j)
          ∨ ∀ c ∈ F.children w, ¬ FillsPixel s w c i j ∧ ¬ HitPixel s F active w c i j) := by
  have hiff := clicksLand_iff_or h hactive hw hcls hdisjoint x y flags
  refine ⟨hiff, ?_⟩
  rintro i j hpixels rfl rfl
  have hdrawn : ∀ c ∈ F.children w,
      DrawnAt s c ((s.widget w).x + i) ((s.widget w).y + j) ↔ FillsPixel s w c i j :=
    fun c hc => (drawn_and_hit h hw hc hpixels).1
  have hclicked := fun c => @clicked_iff_hitPixel s F active w c h hw i j hpixels
  rw [hiff]
  refine or_congr (exists_congr fun c => and_congr_right fun hc => ?_) (forall₂_congr fun c hc => ?_)
  · rw [hdrawn c hc, hclicked]
  · rw [hdrawn c hc, hclicked]

/-- The padding that `gui_desktop_create` gives the desktop at address 8, and an active window on it. -/
def Widgets.shown (s : Widgets) (windows : List Nat) (active : Nat) : Widgets :=
  (widgetSetPadding s 8 0 0 0 16).activated windows active

section

variable {windows : List Nat}

theorem shown_of_ne {p : Nat} (hp : p ≠ 8) : (s.shown windows active).widget p = s.widget p := by
  have hpadding : (widgetSetPadding s 8 0 0 0 16).widget p = s.widget p := setWidget_of_ne _ _ _ hp
  exact hpadding

theorem shown_self : (s.shown windows active).widget 8
    = { s.widget 8 with paddingTop := 0, paddingLeft := 0, paddingRight := 0, paddingBottom := 16 } := by
  have hpadding : (widgetSetPadding s 8 0 0 0 16).widget 8 = _ := setWidget_self _ _ _
  exact hpadding

theorem shown_isActive (hw : w ∈ windows) :
    IsActive (s.shown windows active) w ↔ ((s.shown windows active).widget w).cls = wWindow ∧ w = active := by
  unfold Widgets.shown
  rw [activated_isActive, if_pos hw]
  rfl

theorem IsWindow.shown (h : IsWindow s w) (hne : w ≠ 8) : IsWindow (s.shown windows active) w := by
  refine ⟨?_, ?_⟩
  · rw [shown_of_ne hne, h.cls]
  · rw [shown_of_ne hne, h.onMouseEvent]

/-- A desktop at address 8 that the constructors have built, shown with its windows. -/
theorem onDesktop_shown {chosen : Dirent → Nat → Widgets → Except Halt Widgets}
    {tr : List (Transition CreateState Create)} {g : CreateState}
    (hrun : Run (createStep chosen) ⟨noWidgets, []⟩ tr g) (hdesktop : g.widgets.desktopWindow = 8)
    (hnode : 8 ∈ g.nodes) (hlist : ChildList g.widgets 8 windows)
    (hwindow : ∀ w ∈ windows, w ≠ 8 ∧ IsWindow g.widgets w) (hmem : active ∈ windows) :
    ∃ F, OnDesktop (g.widgets.shown windows active) F
      ∧ F.children (g.widgets.shown windows active).desktopWindow = windows
      ∧ Settles (fun fuel => guiGetActiveWindow fuel (g.widgets.shown windows active)) (.ok active)
      ∧ ∀ p ∈ g.nodes, ∀ l, ChildList g.widgets p l → F.children p = l := by
  have hpadding : LinksKept g.widgets (widgetSetPadding g.widgets 8 0 0 0 16) := by
    refine LinksKept.setWidget (.of_widget_eq rfl rfl) ?_ 8
    exact fun _ => ⟨rfl, rfl, rfl, rfl⟩
  have hkept : LinksKept g.widgets (g.widgets.shown windows active) := ⟨hpadding.links, hpadding.desktop⟩
  obtain ⟨F, hF, hcreated⟩ := (built_run rfl hrun).congr hkept
  rw [show g.nodes = F.nodes from nodes_of_created hcreated] at hnode ⊢
  have hchildren : ∀ p ∈ F.nodes, ∀ l, ChildList g.widgets p l → F.children p = l := by
    intro p hp l hl
    have hshown : ChildList (g.widgets.shown windows active) p l := by
      unfold ChildList
      rw [(hkept.links p).child]
      exact Forest.Links.congr hl fun c _ => (hkept.links c).next
    exact (hF.threaded.child p hp).unique hshown
  have hroot : (g.widgets.shown windows active).desktopWindow = 8 := hdesktop
  have hwindows := hchildren 8 hnode windows hlist
  have hshown : ∀ w ∈ windows, IsWindow (g.widgets.shown windows active) w :=
    fun w hw => (hwindow w hw).2.shown (hwindow w hw).1
  have hon : OnDesktop (g.widgets.shown windows active) F := by
    refine ⟨hF, hroot ▸ hnode, fun w hw _ => hshown w ?_⟩
    rwa [hroot, hwindows] at hw
  rw [hroot]
  refine ⟨F, hon, hwindows, ?_, hchildren⟩
  have hget := hon.getActive
  have hisActive := fun w (hw : w ∈ windows) => @shown_isActive g.widgets active w windows hw
  rw [hroot, hwindows] at hget
  cases hfind : windows.find? fun w => IsActive (g.widgets.shown windows active) w with
  | none =>
    have hnot := List.find?_eq_none.mp hfind active hmem
    exact absurd (decide_eq_true ((hisActive active hmem).mpr ⟨(hshown active hmem).cls, rfl⟩)) hnot
  | some w =>
    have hset : IsActive (g.widgets.shown windows active) w := by simpa using List.find?_some hfind
    rw [hfind, ((hisActive w (List.mem_of_find?_eq_some hfind)).mp hset).2] at hget
    exact hget

end

/-- A desktop, a window on it, and a button in the window. -/
theorem buttonDesktop_run : ∃ tr g, Run (createStep fun _ _ s => .ok s) ⟨noWidgets, []⟩ tr g
    ∧ g.created = [(8, null), (16, 8), (24, 16), (32, 24)] ∧ g.widgets.desktopWindow = 8
    ∧ g.widgets.widget 8 = { Widget.zero with
        cls := wWidget, child := 16, w := 640, h := 463, visible := .parent, bgcolor := 0xE0E0E0
        paddingTop := 2, paddingLeft := 2, paddingRight := 2, paddingBottom := 2 }
    ∧ g.widgets.widget 16 = { Widget.zero with
        cls := wWindow, parent := 8, child := 24, x := 171, y := 22, w := 300, h := 300, visible := .parent
        bgcolor := 0xE0E0E0, paddingTop := 2, paddingLeft := 2, paddingRight := 2, paddingBottom := 2
        onKeyUp := some .windowKeyUp, onKeyDown := some .windowKeyDown
        onMouseMove := some .windowMouseMove, onMouseEvent := some .windowMouseEvent }
    ∧ g.widgets.widget 24 = { Widget.zero with
        cls := wButton, parent := 16, child := 32, w := 30, h := 12, visible := .parent, bgcolor := 0xD4D4D4
        paddingTop := 0, paddingLeft := 2, paddingRight := 2
        onKeyUp := some .buttonKeyup, onKeyDown := some .buttonKeydown, onMouseMove := some .buttonMouseMove
        onMouseEvent := some .buttonMouseEvent, onClick := some .buttonClick } := by
  let chosen : Dirent → Nat → Widgets → Except Halt Widgets := fun _ _ s => .ok s
  have hdesktop : createStep chosen ⟨noWidgets, []⟩ (.widget 8 wWidget 0 0 640 463 null) _ :=
    ⟨⟨Or.inr (by decide), Or.inl rfl⟩, 3, rfl⟩
  have hrun := (((Run.nil.snoc hdesktop).snoc (e := Create.desktop 8) ⟨Or.inr (by decide), 3, rfl⟩).snoc
    (e := Create.window 16 null 300 300) ⟨Or.inr (by decide), 3, rfl⟩).snoc
    (e := Create.button 24 32 40 (some [103, 111]) 16)
    ⟨⟨Or.inr (by decide), Or.inr ⟨by decide, by decide⟩, Or.inr (by decide)⟩, 3, rfl⟩
  exact ⟨_, _, hrun, rfl, rfl, rfl, rfl, rfl⟩

/-- The window is active. The button is drawn from (173, 24) on, and hit from (171, 22) on. -/
theorem buttonDesktop : ∃ s F, OnDesktop s F ∧ F.children s.desktopWindow = [16] ∧ F.children 16 = [24]
    ∧ Settles (fun fuel => guiGetActiveWindow fuel s) (.ok 16) ∧ IsWindow s 16
    ∧ Settles (fun fuel => widgetAbsoluteXy fuel s 24) (.ok (173, 24))
    ∧ (s.widget 24).w = 30 ∧ (s.widget 24).h = 12 ∧ (s.widget 16).x = 171 ∧ (s.widget 16).y = 22
    ∧ InPixels s F 16 9 8 ∧ Clicked s F 16 16 24 171 22 ∧ Clicked s F 16 16 24 180 30 := by
  obtain ⟨tr, g, hrun, hcreated, hdesktop, h8, h16, h24⟩ := buttonDesktop_run
  have hnodes : ∀ p, p ∈ g.nodes ↔ p ∈ [8, 16, 24, 32] := by
    unfold CreateState.nodes
    rw [hcreated]
    exact fun _ => Iff.rfl
  have hlist : ChildList g.widgets 8 [16] := ⟨by rw [h8], by decide, congrArg Widget.next h16⟩
  have hwindow : IsWindow g.widgets 16 := ⟨congrArg Widget.cls h16, congrArg Widget.onMouseEvent h16⟩
  obtain ⟨F, hF, hfirst, hactive, hchildren⟩ := onDesktop_shown hrun hdesktop ((hnodes 8).mpr (by decide)) hlist
    (fun w hw => by rw [List.mem_singleton.mp hw]; exact ⟨by decide, hwindow⟩) (List.mem_singleton.mpr rfl)
  have hsecond : F.children 16 = [24] :=
    hchildren 16 ((hnodes 16).mpr (by decide)) [24] ⟨by rw [h16], by decide, congrArg Widget.next h24⟩
  have hs8 := @shown_self g.widgets 16 [16]
  have hs16 := @shown_of_ne g.widgets 16 [16] 16 (by decide)
  have hs24 := @shown_of_ne g.widgets 16 [16] 24 (by decide)
  rw [h8] at hs8
  rw [h16] at hs16
  rw [h24] at hs24
  have hroot : (g.widgets.shown [16] 16).desktopWindow = 8 := hdesktop
  generalize g.widgets.shown [16] 16 = s at *
  -- the button, its window and the desktop: three positions, two paddings
  have hxy : Settles (fun fuel => widgetAbsoluteXy fuel s 24) (.ok (173, 24)) := by
    refine ⟨3, fun fuel hfuel => ?_⟩
    obtain ⟨fuel, rfl⟩ := Nat.exists_eq_add_of_le' hfuel
    show addAncestors (fuel + 3) s (s.widget 24).parent _ = _
    rw [hs24, addAncestors, if_neg (show (16 : Nat) ≠ null by decide)]
    dsimp only
    rw [hs16, addAncestors, if_neg (show (8 : Nat) ≠ null by decide)]
    dsimp only
    rw [hs8]
    rfl
  -- the active window gets the event, and the button is its only child
  have hclicked : ∀ x y, pointIsInside s 16 x y → pointIsInside s 24 (sub32 x 171) (sub32 y 22) →
      Clicked s F 16 16 24 x y := by
    intro x y hin hbutton
    refine ⟨?_, ?_, ?_⟩
    · unfold mouseTarget
      rw [if_neg (by decide), if_pos hin]
    · unfold childInside firstInside
      rw [hsecond, hs16]
      exact List.find?_cons_of_pos hbutton
    · rw [hs24]
      exact Option.some_ne_none _
  have hpixels : InPixels s F 16 9 8 := by
    refine ⟨hF.root (by rw [hroot, hs8]; rfl), ?_, ?_, by rw [hs16]; decide, by rw [hs16]; decide⟩
    · unfold drawnRight
      rw [hsecond, List.forall_mem_singleton, hroot, hs8, hs16, hs24]
      decide
    · unfold drawnBelow
      rw [hsecond, List.forall_mem_singleton, hroot, hs8, hs16, hs24]
      decide
  refine ⟨s, F, hF, hfirst, hsecond, hactive, ⟨congrArg Widget.cls hs16, congrArg Widget.onMouseEvent hs16⟩, hxy,
    congrArg Widget.w hs24, congrArg Widget.h hs24, congrArg Widget.x hs16, congrArg Widget.y hs16, hpixels,
    hclicked 171 22 ?_ ?_, hclicked 180 30 ?_ ?_⟩
  all_goals
    unfold pointIsInside
    first | rw [hs16] | rw [hs24]
    decide

/-- The pointer at (180, 30), the pixel (9, 8) of the window, where the button is drawn and hit. -/
theorem window_clicks_button : ∃ s F, F.children s.desktopWindow = [16] ∧ F.children 16 = [24]
    ∧ FillsPixel s 16 24 9 8 ∧ ClicksLand s F 16 180 30 1 := by
  obtain ⟨s, F, hF, hfirst, hsecond, hactive, hwindow, hxy, hw, hh, hx, hy, hpixels, _, hclicked⟩ := buttonDesktop
  have hmem : 16 ∈ F.children s.desktopWindow := by rw [hfirst]; decide
  have hbutton : 24 ∈ F.children 16 := by rw [hsecond]; decide
  have hdrawn : DrawnAt s 24 180 30 := by
    rw [drawnAt_iff hxy, hw, hh]
    decide
  have hfills := (drawn_and_hit hF hmem hbutton hpixels).1
  have hhit := @clicked_iff_hitPixel s F 16 16 24 hF hmem 9 8 hpixels
  rw [hx, hy] at hfills hhit
  refine ⟨s, F, hfirst, hsecond, hfills.mp hdrawn, ((window_clicks_iff hF hactive hmem hwindow.cls ?_ 180 30 1).2
    9 8 hpixels (by rw [hx]) (by rw [hy])).mpr (Or.inl ⟨24, hbutton, hfills.mp hdrawn, hhit.mp hclicked⟩)⟩
  intro c hc d hd hne
  rw [hsecond] at hc hd
  exact absurd ((List.mem_singleton.mp hc).trans (List.mem_singleton.mp hd).symm) hne

/-- The pointer at (171, 22), in the padding of the window: nothing is drawn there, and the button is hit. -/
theorem window_clicks_padding : ∃ s F, OnDesktop s F ∧ F.children s.desktopWindow = [16] ∧ F.children 16 = [24]
    ∧ pointIsInside s 16 171 22 ∧ ¬ DrawnAt s 24 171 22 ∧ ¬ ClicksLand s F 16 171 22 1 := by
  obtain ⟨s, F, hF, hfirst, hsecond, hactive, hwindow, hxy, hw, hh, _, _, _, hclicked, _⟩ := buttonDesktop
  have hdrawn : ¬ DrawnAt s 24 171 22 := by
    rw [drawnAt_iff hxy, hw, hh]
    decide
  refine ⟨s, F, hF, hfirst, hsecond, (mouseTarget_mem hF hactive hclicked.window).2, hdrawn, fun h => ?_⟩
  have hiff := (clicksLand_iff hF hactive hwindow 171 22 1).mp h 24 (by rw [hsecond]; decide)
  exact hdrawn (hiff.mp hclicked)

/-! ## The windows

Windows overlap. They are drawn in the order of the list, so that the last one is on top; but they are searched
from the first on. -/

/-- A window on the desktop that the point is inside. -/
def windowAt (s : Widgets) (x y w : Nat) : Bool :=
  (s.widget w).cls = wWindow ∧ (s.widget w).parent = s.desktopWindow ∧ pointIsInside s w x y

/-- The window that gets the event. -/
def deliveredWindow (s : Widgets) (call : Option MouseCall) : Option Nat :=
  (call.map MouseCall.widget).filter fun w => (s.widget w).cls = wWindow

/-- The last of the visits to a window that the point is inside. -/
def paintedLast (s : Widgets) (x y : Nat) (visits : List Visit) : Option Nat :=
  ((visits.map Visit.widget).filter (windowAt s x y)).getLast?

/-- The event is given to the window that is drawn last. -/
def ClickToTop (s : Widgets) (x y flags : Nat) : Prop :=
  ∃ call visits, Settles (fun fuel => guiMouse fuel s x y flags) (.ok call)
    ∧ Settles (fun fuel => guiDraw fuel s) (.ok visits) ∧ deliveredWindow s call = paintedLast s x y visits

/-- **`gui_draw`** goes through the desktop, and through the active window once more. -/
theorem guiDraw_settles (h : OnDesktop s F)
    (hactive : Settles (fun fuel => guiGetActiveWindow fuel s) (.ok active)) (hne : active ≠ null) :
    Settles (fun fuel => guiDraw fuel s)
      (.ok ((F.preorder s.desktopWindow).map (visit s) ++ (F.preorder active).map (visit s))) := by
  have hmem := F.mem_of_parent (F.mem_children.mp (h.active_mem hactive hne).1)
  have hdesktop : Settles (fun fuel => widgetDraw fuel s s.desktopWindow) _ := widgetDraw_eq h.holds h.desktop
  have hwindow : Settles (fun fuel => widgetDraw fuel s active) _ := widgetDraw_eq h.holds hmem
  exact hdesktop.bind (hactive.bind (hwindow.bind (settles_const fun _ => rfl)))

/-- The window drawn last at a point is the active one, or the last of the others in the list. -/
theorem paintedLast_eq (h : OnDesktop s F)
    (hactive : Settles (fun fuel => guiGetActiveWindow fuel s) (.ok active)) (hne : active ≠ null) (x y : Nat) :
    paintedLast s x y ((F.preorder s.desktopWindow).map (visit s) ++ (F.preorder active).map (visit s))
      = if pointIsInside s active x y then some active
        else ((F.children s.desktopWindow).filter (windowAt s x y)).getLast? := by
  obtain ⟨hmem, hwindow⟩ := h.active_mem hactive hne
  have hunder := F.mem_children.mp hmem
  have hchild : ∀ v ∈ F.nodes, windowAt s x y v → F.Under v s.desktopWindow := by
    intro v hv hat
    have hparent := (of_decide_eq_true hat).2.1
    rw [h.holds.threaded.parent v hv] at hparent
    exact under_of_getD hparent h.ne
  have hat : windowAt s x y active = pointIsInside s active x y := by
    unfold windowAt
    simp only [hwindow.cls, h.parent hmem, true_and, Bool.decide_eq_true]
  have hvisit : ∀ l : List Nat, (l.map (visit s)).map Visit.widget = l := fun l => by
    rw [List.map_map]
    exact List.map_id l
  unfold paintedLast
  rw [List.map_append, hvisit, hvisit, List.filter_append, Forest.filter_preorder hchild h.desktop,
    Forest.filter_preorder_child hchild hunder, List.getLast?_append, List.filter_cons, List.filter_nil, hat]
  split <;> rfl

/-- The window that gets the event is the active one, or the first child of the desktop that the point is
inside, if it is a window. -/
theorem deliveredWindow_eq (h : OnDesktop s F)
    (hactive : Settles (fun fuel => guiGetActiveWindow fuel s) (.ok active)) (hne : active ≠ null)
    (x y flags : Nat) :
    deliveredWindow s ((mouseTarget s F active x y).bind fun w => mouseCall s w x y flags)
      = if pointIsInside s active x y then some active
        else (firstInside s (F.children s.desktopWindow) x y).filter fun w => (s.widget w).cls = wWindow := by
  -- the callback of a window is there to be called
  have hcalled : ∀ w ∈ F.children s.desktopWindow,
      deliveredWindow s (mouseCall s w x y flags) = (some w).filter fun w => (s.widget w).cls = wWindow := by
    intro w hw
    unfold deliveredWindow mouseCall
    by_cases hcls : (s.widget w).cls = wWindow
    · rw [(h.window w hw hcls).onMouseEvent]
      rfl
    · rw [Option.filter_some_neg (by simpa using hcls)]
      cases (s.widget w).onMouseEvent with
      | none => rfl
      | some handler => exact Option.filter_some_neg (by simpa using hcls)
  obtain ⟨hmem, hwindow⟩ := h.active_mem hactive hne
  unfold mouseTarget
  rw [if_neg hne]
  split
  · rw [Option.bind_some, hcalled active hmem]
    exact Option.filter_some_pos (by simpa using hwindow.cls)
  · cases hfirst : firstInside s (F.children s.desktopWindow) x y with
    | none => rfl
    | some w => exact hcalled w (firstInside_some hfirst).1

/-- A click reaches the window on top if the search comes to it first. -/
theorem clickToTop_iff (h : OnDesktop s F)
    (hactive : Settles (fun fuel => guiGetActiveWindow fuel s) (.ok active)) (hne : active ≠ null)
    (x y flags : Nat) :
    ClickToTop s x y flags ↔
      (if pointIsInside s active x y then some active
        else (firstInside s (F.children s.desktopWindow) x y).filter fun w => (s.widget w).cls = wWindow)
      = if pointIsInside s active x y then some active
        else ((F.children s.desktopWindow).filter (windowAt s x y)).getLast? := by
  have hmouse := guiMouse_settles h hactive x y flags
  have hdraw := guiDraw_settles h hactive hne
  rw [← deliveredWindow_eq h hactive hne x y flags, ← paintedLast_eq h hactive hne x y]
  constructor
  · rintro ⟨call, visits, hcall, hvisits, heq⟩
    cases hcall.unique hmouse
    cases hvisits.unique hdraw
    exact heq
  · exact fun heq => ⟨_, _, hmouse, hdraw, heq⟩

/-- **Clicks and windows.** At every point, whichever window is active, `gui_main` gives the event to the
window that `gui_draw` draws last there, if and only if the point is inside the active window, or no child
of the desktop that the point is inside stands before a window that it is inside. -/
theorem topmost_window_iff (h : OnDesktop s F)
    (hactive : Settles (fun fuel => guiGetActiveWindow fuel s) (.ok active)) (hne : active ≠ null)
    (x y flags : Nat) :
    ClickToTop s x y flags
      ↔ pointIsInside s active x y
        ∨ ∀ c w, [c, w].Sublist (F.children s.desktopWindow) → windowAt s x y w → ¬ pointIsInside s c x y := by
  rw [clickToTop_iff h hactive hne]
  by_cases hin : pointIsInside s active x y
  · rw [if_pos hin, if_pos hin]
    exact iff_of_true rfl (Or.inl hin)
  · rw [if_neg hin, if_neg hin, or_iff_right hin]
    have hat : ∀ w ∈ F.children s.desktopWindow,
        windowAt s x y w = (pointIsInside s w x y && decide ((s.widget w).cls = wWindow)) := by
      intro w hw
      unfold windowAt
      simp [h.parent hw, Bool.and_comm]
    rw [List.filter_congr hat]
    refine (FirstHit.find?_filter_eq_getLast?_iff (F.nodup_children _) _ _).trans ?_
    refine forall_congr' fun c => forall_congr' fun w => forall_congr' fun hsub => ?_
    rw [hat w (hsub.subset (List.mem_cons_of_mem c List.mem_cons_self)), Bool.and_eq_true, and_imp]

/-- Three windows on the desktop, the last one smaller. -/
theorem windowsDesktop_run : ∃ tr g, Run (createStep fun _ _ s => .ok s) ⟨noWidgets, []⟩ tr g
    ∧ g.created = [(8, null), (16, 8), (24, 8), (32, 8)] ∧ g.widgets.desktopWindow = 8
    ∧ (g.widgets.widget 8).child = 16
    ∧ ∀ w ∈ [(16, 24, 171, 300), (24, 32, 171, 300), (32, null, 271, 100)],
      g.widgets.widget w.1 = { Widget.zero with
        cls := wWindow, parent := 8, x := w.2.2.1, y := 22, w := w.2.2.2, h := w.2.2.2, visible := .parent
        bgcolor := 0xE0E0E0, paddingTop := 2, paddingLeft := 2, paddingRight := 2, paddingBottom := 2
        onKeyUp := some .windowKeyUp, onKeyDown := some .windowKeyDown
        onMouseMove := some .windowMouseMove, onMouseEvent := some .windowMouseEvent, next := w.2.1 } := by
  let chosen : Dirent → Nat → Widgets → Except Halt Widgets := fun _ _ s => .ok s
  have hdesktop : createStep chosen ⟨noWidgets, []⟩ (.widget 8 wWidget 0 0 640 463 null) _ :=
    ⟨⟨Or.inr (by decide), Or.inl rfl⟩, 3, rfl⟩
  have hrun := (((((Run.nil.snoc hdesktop).snoc (e := Create.desktop 8) ⟨Or.inr (by decide), 3, rfl⟩).snoc
    (e := Create.window 16 null 300 300) ⟨Or.inr (by decide), 3, rfl⟩).snoc
    (e := Create.window 24 null 300 300) ⟨Or.inr (by decide), 3, rfl⟩).snoc
    (e := Create.window 32 null 100 100) ⟨Or.inr (by decide), 5, rfl⟩)
  refine ⟨_, _, hrun, rfl, rfl, rfl, ?_⟩
  simp only [List.forall_mem_cons]
  exact ⟨rfl, rfl, rfl, List.forall_mem_nil _⟩

/-- The last window is active. It covers the point (300, 100), and not (200, 200) as the other two do. -/
theorem windowsDesktop : ∃ s F, OnDesktop s F ∧ F.children s.desktopWindow = [16, 24, 32]
    ∧ Settles (fun fuel => guiGetActiveWindow fuel s) (.ok 32) ∧ (∀ w ∈ [16, 24, 32], IsWindow s w)
    ∧ pointIsInside s 32 300 100 ∧ ∀ w ∈ [16, 24, 32], pointIsInside s w 200 200 = decide (w ≠ 32) := by
  obtain ⟨tr, g, hrun, hcreated, hdesktop, h8, hrecords⟩ := windowsDesktop_run
  simp only [List.forall_mem_cons] at hrecords
  obtain ⟨h16, h24, h32, -⟩ := hrecords
  have hnode : 8 ∈ g.nodes := by
    unfold CreateState.nodes
    rw [hcreated]
    decide
  have hlist : ChildList g.widgets 8 [16, 24, 32] :=
    ⟨h8, by decide, congrArg Widget.next h16, by decide, congrArg Widget.next h24, by decide,
      congrArg Widget.next h32⟩
  have hwindow : ∀ w ∈ [16, 24, 32], w ≠ 8 ∧ IsWindow g.widgets w := by
    simp only [List.forall_mem_cons]
    exact ⟨⟨by decide, congrArg Widget.cls h16, congrArg Widget.onMouseEvent h16⟩,
      ⟨by decide, congrArg Widget.cls h24, congrArg Widget.onMouseEvent h24⟩,
      ⟨by decide, congrArg Widget.cls h32, congrArg Widget.onMouseEvent h32⟩, List.forall_mem_nil _⟩
  obtain ⟨F, hF, hfirst, hactive, -⟩ := onDesktop_shown hrun hdesktop hnode hlist hwindow
    (show 32 ∈ [16, 24, 32] by decide)
  -- showing the windows has changed the desktop only
  have hs16 := (@shown_of_ne g.widgets 32 [16, 24, 32] 16 (by decide)).trans h16
  have hs24 := (@shown_of_ne g.widgets 32 [16, 24, 32] 24 (by decide)).trans h24
  have hs32 := (@shown_of_ne g.widgets 32 [16, 24, 32] 32 (by decide)).trans h32
  refine ⟨_, F, hF, hfirst, hactive, fun w hw => (hwindow w hw).2.shown (hwindow w hw).1, ?_, ?_⟩
  · unfold pointIsInside
    rw [hs32]
    decide
  · simp only [List.forall_mem_cons]
    unfold pointIsInside
    rw [hs16, hs24, hs32]
    exact ⟨by decide, by decide, by decide, List.forall_mem_nil _⟩

/-- The point (300, 100), which is inside the active window. -/
theorem topmost_window_active : ∃ (s : Widgets) (F : Forest Nat), F.children s.desktopWindow = [16, 24, 32]
    ∧ Settles (fun fuel => guiGetActiveWindow fuel s) (.ok 32) ∧ ClickToTop s 300 100 1 := by
  obtain ⟨s, F, hF, hfirst, hactive, _, hin, _⟩ := windowsDesktop
  exact ⟨s, F, hfirst, hactive, (topmost_window_iff hF hactive (by decide) 300 100 1).mpr (Or.inl hin)⟩

/-- The point (200, 200): the window 24 is drawn over the window 16, which gets the event. -/
theorem topmost_window_covered : ∃ s F, OnDesktop s F ∧ F.children s.desktopWindow = [16, 24, 32]
    ∧ Settles (fun fuel => guiGetActiveWindow fuel s) (.ok 32) ∧ (∀ w ∈ [16, 24, 32], IsWindow s w)
    ∧ pointIsInside s 16 200 200 ∧ pointIsInside s 24 200 200 ∧ ¬ ClickToTop s 200 200 1 := by
  obtain ⟨s, F, hF, hfirst, hactive, hwindow, _, hin⟩ := windowsDesktop
  have hin16 : pointIsInside s 16 200 200 = true := hin 16 (by decide)
  have hin24 : pointIsInside s 24 200 200 = true := hin 24 (by decide)
  have hin32 : pointIsInside s 32 200 200 = false := hin 32 (by decide)
  refine ⟨s, F, hF, hfirst, hactive, hwindow, hin16, hin24, fun h => ?_⟩
  have hat : ∀ w ∈ [16, 24, 32], windowAt s 200 200 w = pointIsInside s w 200 200 := by
    intro w hw
    unfold windowAt
    simp [(hwindow w hw).cls, hF.parent (hfirst ▸ hw)]
  have heq := (clickToTop_iff hF hactive (by decide) 200 200 1).mp h
  rw [hin32, if_neg Bool.false_ne_true, if_neg Bool.false_ne_true, hfirst, List.filter_congr hat] at heq
  unfold firstInside at heq
  simp [hin16, hin24, hin32] at heq

end

end DiyOS
