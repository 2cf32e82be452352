import DiyOS.Basic
import DiyOS.LinkedList

/-!
# Widgets (`gui/widgets`)

A widget is a `struct widget`, alone or as the first member of the struct of its class, so that the two
have the same address. The memory of the widgets is given by the structs at each address; that of a struct
which `malloc` has just returned holds anything. A string is the list of its characters.

A `malloc` of a constructor is an argument, the address that it returns: the null pointer when it fails.
What is then written through the null pointer goes to the struct at address 0.
-/

namespace DiyOS

open Word

def wWidget : Nat := 0
def wWindow : Nat := 1
def wLabel : Nat := 2
def wButton : Nat := 3
def wEdit : Nat := 4
def wFileNavigator : Nat := 5

/-- `widget_visibility_t`. -/
inductive Visibility where
  | hidden
  | visible
  | parent
  deriving DecidableEq

/-- The functions that the constructors store as callbacks. -/
inductive Handler where
  | windowKeyUp | windowKeyDown | windowMouseMove | windowMouseEvent
  | buttonKeyup | buttonKeydown | buttonMouseMove | buttonMouseEvent | buttonClick
  | editKeydown | editMouseEvent | editFocus | editLooseFocus
  | fileNavigatorKeydown | fileNavigatorMouseEvent | fileNavigatorFocus | fileNavigatorLooseFocus
  | fileNavigatorChoose
  deriving DecidableEq

/-- `struct widget`. Coordinates and sizes are 32-bit words, of which `x`, `y`, `w` and `h` are signed. A
colour is its `value`. -/
structure Widget where
  parent : Nat
  child : Nat
  cls : Nat
  x : Nat
  y : Nat
  w : Nat
  h : Nat
  paddingTop : Nat
  paddingLeft : Nat
  paddingRight : Nat
  paddingBottom : Nat
  fgcolor : Nat
  bgcolor : Nat
  visible : Visibility
  onPaint : Option (Nat → UInt8)
  onKeyDown : Option Handler
  onKeyUp : Option Handler
  onMouseMove : Option Handler
  onMouseEvent : Option Handler
  onClick : Option Handler
  onFocus : Option Handler
  onLooseFocus : Option Handler
  next : Nat

/-- A `struct widget` after `memset`. -/
def Widget.zero : Widget :=
  ⟨null, null, 0, 0, 0, 0, 0, 0, 0, 0, 0, 0, 0, .hidden, none, none, none, none, none, none, none, none, null⟩

/-- `window_type_t`. -/
inductive WindowType where
  | none
  | toplevel
  deriving DecidableEq

/-- `struct window`, without its widget. -/
structure Window where
  active : Nat
  focus : Nat
  name : Option (List UInt8)
  type : WindowType

def noWrap : Nat := 0
def charWrap : Nat := 1

/-- `struct label`, without its widget. -/
structure Label where
  text : Option (List UInt8)
  linespace : Nat
  wordwrap : Nat

/-- `struct button`, without its widget. -/
structure Button where
  label : Nat
  enabled : Nat
  pressed : Nat

/-- `struct edit`, without its widget. -/
structure Edit where
  text : Option (List UInt8)
  mask : Nat
  length : Nat
  cursorPosition : Nat

/-- `struct dirent`, the fields that the navigator reads. -/
structure Dirent where
  name : List UInt8
  flags : Nat

def fsDirectory : Nat := 2

/-- `struct file_navigator`, without its widget. -/
structure FileNavigator where
  onChoose : Option Handler
  directory : Option (List UInt8)
  files : List Dirent
  count : Nat
  selected : Nat

/-- The structs at each address, and the variables `desktop_window` and the width of the screen. -/
structure Widgets where
  widget : Nat → Widget
  window : Nat → Window
  label : Nat → Label
  button : Nat → Button
  edit : Nat → Edit
  fileNavigator : Nat → FileNavigator
  desktopWindow : Nat
  gfxWidth : Nat

/-- Assignments to the widget at `p`. -/
def Widgets.setWidget (s : Widgets) (p : Nat) (f : Widget → Widget) : Widgets :=
  { s with widget := Function.update s.widget p (f (s.widget p)) }

/-! ## `widget.c`

The links: a widget knows its parent, its first child and its next sibling. -/

def widgetSetPadding (s : Widgets) (widget top left right bottom : Nat) : Widgets :=
  s.setWidget widget fun w => { w with
    paddingLeft := left, paddingTop := top, paddingRight := right, paddingBottom := bottom }

/-- The loop `while(chld->next) chld = chld->next`. -/
def lastSibling : Nat → Widgets → Nat → Except Halt Nat
  | 0, _, _ => .error .loops
  | fuel + 1, s, chld =>
    if (s.widget chld).next ≠ null then lastSibling fuel s (s.widget chld).next else .ok chld

def widgetSetParent (fuel : Nat) (s : Widgets) (widget parent : Nat) : Except Halt Widgets :=
  if widget = null then .ok s
  else
    let s := s.setWidget widget fun w => { w with parent := parent }
    if parent = null then .ok s
    else do
      let s ← if (s.widget parent).child ≠ null then do
          let chld ← lastSibling fuel s (s.widget parent).child
          .ok (s.setWidget chld fun w => { w with next := widget })
        else .ok (s.setWidget parent fun w => { w with child := widget })
      .ok (s.setWidget widget fun w => { w with next := null })

/-- `widget_create`; it leaves the callbacks that it does not assign as they were in memory. -/
def widgetCreate (fuel : Nat) (s : Widgets) (mem cls x y w h parent : Nat) : Except Halt (Nat × Widgets) :=
  if mem = null then .ok (null, s)
  else do
    let s := s.setWidget mem fun widget => { widget with
      next := null, child := null, cls := cls, x := x, y := y, w := w, h := h, visible := .parent
      fgcolor := 0, bgcolor := 0xE0E0E0, onPaint := none, onKeyUp := none, onKeyDown := none }
    let s := widgetSetPadding s mem 2 2 2 2
    let s ← widgetSetParent fuel s mem parent
    .ok (mem, s)

/-! ## `window.c`

A window is a widget below the desktop. -/

/-- `window_set_name`, with the address of the copy. -/
def windowSetName (s : Widgets) (window : Nat) (name : List UInt8) (mem : Nat) : Widgets :=
  if window = null then s
  else { s with window := Function.update s.window window { s.window window with
    name := if mem = null then none else some name } }

def diyOS : List UInt8 := [68, 105, 121, 79, 83]

def windowCreate (fuel : Nat) (s : Widgets) (mem nameMem w h : Nat) : Except Halt (Nat × Widgets) :=
  if mem = null then .ok (null, s)
  else do
    let s := { s with
      widget := Function.update s.widget mem { Widget.zero with
        cls := wWindow, x := sub32 s.gfxWidth w / 2, y := 10, w := w, h := h, visible := .parent
        fgcolor := 0, bgcolor := 0xE0E0E0 }
      window := Function.update s.window mem
        { active := 0, focus := null, name := none, type := .toplevel } }
    let s := widgetSetPadding s mem 2 2 2 2
    let s := s.setWidget mem fun widget => { widget with
      onPaint := none, onKeyUp := some .windowKeyUp, onKeyDown := some .windowKeyDown
      onMouseMove := some .windowMouseMove, onMouseEvent := some .windowMouseEvent
      x := u32 (widget.x + 1), y := u32 (widget.y + 12) }
    let s := windowSetName s mem diyOS nameMem
    let s ← widgetSetParent fuel s mem s.desktopWindow
    .ok (mem, s)

/-! ## `label.c`

The size of a label is computed from its text when the text is set. -/

/-- `label_size_request`; it divides by the width that it has just assigned. -/
def labelSizeRequest (s : Widgets) (lbl : Nat) : Except Halt Widgets :=
  if lbl = null then .ok s
  else
    match (s.label lbl).text with
    | none => .ok (s.setWidget lbl fun widget => { widget with w := 8, h := 8 })
    | some text =>
      let txtWidth := u32 (text.length * 8)
      let widget := s.widget lbl
      if widget.parent ≠ null then
        let parent := s.widget widget.parent
        let inner := sub32 (sub32 parent.w parent.paddingLeft) parent.paddingRight
        if txtWidth > inner then
          if inner = 0 then .error .undefined
          else
            let txtHeight := txtWidth / inner + if txtWidth % inner ≠ 0 then 1 else 0
            .ok (s.setWidget lbl fun widget => { widget with
              w := inner
              h := u32 ((txtHeight + (s.label lbl).linespace) * 8 + widget.paddingTop
                + widget.paddingBottom) })
        else .ok s
      else .ok (s.setWidget lbl fun widget => { widget with
        w := txtWidth, h := u32 (8 + widget.paddingTop + widget.paddingBottom) })

def labelSetLinespace (s : Widgets) (lbl space : Nat) : Widgets :=
  { s with label := Function.update s.label lbl { s.label lbl with linespace := space } }

/-- `label_set_text`, with the address of the copy. -/
def labelSetText (s : Widgets) (lbl : Nat) (text : Option (List UInt8)) (mem : Nat) : Except Halt Widgets :=
  if lbl = null then .ok s
  else
    labelSizeRequest { s with label := Function.update s.label lbl { s.label lbl with
      text := if mem = null then none else text } } lbl

def labelCreate (fuel : Nat) (s : Widgets) (mem textMem : Nat) (text : Option (List UInt8)) (parent : Nat) :
    Except Halt (Nat × Widgets) :=
  if mem = null then .ok (null, s)
  else do
    let s := { s with
      widget := Function.update s.widget mem { Widget.zero with
        cls := wLabel, visible := .parent, fgcolor := 0x606060, bgcolor := 0xE0E0E0 }
      label := Function.update s.label mem { text := none, linespace := 0, wordwrap := charWrap } }
    let s := widgetSetPadding s mem 2 0 0 0
    let s ← widgetSetParent fuel s mem parent
    let s ← labelSetText s mem text textMem
    .ok (mem, labelSetLinespace s mem 2)

/-! ## `button.c`

A button owns the label that shows its caption. -/

def buttonCreate (fuel : Nat) (s : Widgets) (mem labelMem textMem : Nat) (caption : Option (List UInt8))
    (parent : Nat) : Except Halt (Nat × Widgets) :=
  if mem = null then .ok (null, s)
  else do
    let s := { s with
      widget := Function.update s.widget mem { Widget.zero with
        cls := wButton, w := 30, h := 12, parent := parent, visible := .parent
        fgcolor := 0, bgcolor := 0xD4D4D4 }
      button := Function.update s.button mem { label := null, enabled := 0, pressed := 0 } }
    let s := widgetSetPadding s mem 0 2 2 0
    let s := s.setWidget mem fun widget => { widget with
      onKeyUp := some .buttonKeyup, onKeyDown := some .buttonKeydown
      onMouseMove := some .buttonMouseMove, onMouseEvent := some .buttonMouseEvent
      onClick := some .buttonClick }
    let s ← widgetSetParent fuel s mem parent
    let (lbl, s) ← labelCreate fuel s labelMem textMem caption mem
    let s := { s with button := Function.update s.button mem { s.button mem with label := lbl } }
    .ok (mem, s.setWidget lbl fun widget => { widget with bgcolor := (s.widget mem).bgcolor, x := 0 })

/-! ## `edit.c`

An edit field has a buffer for 32 characters. -/

def editCreate (fuel : Nat) (s : Widgets) (mem textMem parent : Nat) : Except Halt (Nat × Widgets) :=
  if mem = null then .ok (null, s)
  else do
    let s := { s with
      widget := Function.update s.widget mem { Widget.zero with
        cls := wEdit, w := 75, h := 12, parent := parent, visible := .parent
        fgcolor := 0x404040, bgcolor := 0xFFFFFF
        onKeyDown := some .editKeydown, onLooseFocus := some .editLooseFocus
        onFocus := some .editFocus, onMouseEvent := some .editMouseEvent }
      edit := Function.update s.edit mem
        { text := if textMem = null then none else some [], mask := 0, length := 32, cursorPosition := 0 } }
    let s := widgetSetPadding s mem 0 0 0 0
    let s ← widgetSetParent fuel s mem parent
    .ok (mem, s)

/-! ## `filenavigator.c`

A navigator keeps the list of a directory. What `file_navigator_choose` does with an entry is a parameter here;
`Gui/Navigator` has it in full. -/

/-- What `readdir` answers for a directory, entry by entry. The list of them, at twelve bytes an entry,
lies in memory. -/
structure Listing where
  entries : List Dirent
  fits : 12 * (entries.length + 1) < 4294967296

/-- The entry `..`. -/
def dotDot : Dirent := ⟨[46, 46], fsDirectory⟩

section

variable (chosen : Dirent → Nat → Widgets → Except Halt Widgets)

/-- `file_navigator_choose`; `chosen` is what it does with an entry. -/
def fileNavigatorChoose (s : Widgets) (fn : Nat) : Except Halt Widgets :=
  match listGet (s.fileNavigator fn).files (s.fileNavigator fn).selected with
  | none => .ok s
  | some entry => chosen entry fn s

/-- `file_navigator_set` on a directory and its listing. -/
def fileNavigatorSet (s : Widgets) (fn : Nat) (directory : List UInt8) (listing : Listing) :
    Except Halt Widgets := do
  let nav := s.fileNavigator fn
  let nav := if nav.directory.isSome then { nav with files := [], count := 0, selected := 0xFFFFFFFF } else nav
  let nav := { nav with
    files := listing.entries.foldl listAdd (listAdd nav.files dotDot)
    count := u32 (nav.count + 1 + listing.entries.length)
    directory := some directory }
  let s ← fileNavigatorChoose chosen
    { s with fileNavigator := Function.update s.fileNavigator fn nav } fn
  .ok { s with fileNavigator := Function.update s.fileNavigator fn { s.fileNavigator fn with
    selected := if (s.fileNavigator fn).count ≠ 0 then 0 else (s.fileNavigator fn).selected } }

def fileNavigatorCreate (fuel : Nat) (s : Widgets) (mem : Nat) (directory : Option (List UInt8 × Listing))
    (parent : Nat) : Except Halt (Nat × Widgets) :=
  if mem = null then .ok (null, s)
  else do
    let p := s.widget parent
    let s := { s with
      widget := Function.update s.widget mem { Widget.zero with
        cls := wFileNavigator
        w := if parent = null then 0 else sub32 (sub32 p.w p.paddingLeft) p.paddingRight
        h := if parent = null then 0 else sub32 (sub32 p.h p.paddingTop) p.paddingBottom
        visible := .parent, fgcolor := 0x606060, bgcolor := 0xF0F0F0
        onKeyDown := some .fileNavigatorKeydown, onMouseEvent := some .fileNavigatorMouseEvent
        onFocus := some .fileNavigatorFocus, onLooseFocus := some .fileNavigatorLooseFocus }
      fileNavigator := Function.update s.fileNavigator mem
        { onChoose := some .fileNavigatorChoose, directory := none, files := [], count := 0
          selected := 0xFFFFFFFF } }
    let s := widgetSetPadding s mem 0 0 0 0
    let s ← widgetSetParent fuel s mem parent
    match directory with
    | none => .ok (mem, s)
    | some (directory, listing) => do
      let s ← fileNavigatorSet chosen s mem directory listing
      .ok (mem, s)

end

/-! ## Drawing -/

/-- The loop of `widget_absolute_xy` from `parent` on. -/
def addAncestors : Nat → Widgets → Nat → Nat × Nat → Except Halt (Nat × Nat)
  | 0, _, _, _ => .error .loops
  | fuel + 1, s, parent, (x, y) =>
    if parent = null then .ok (x, y)
    else
      let p := s.widget parent
      addAncestors fuel s p.parent (u32 (x + u32 (p.x + p.paddingLeft)), u32 (y + u32 (p.y + p.paddingTop)))

/-- `widget_absolute_xy` on a widget: what it stores in `*x` and `*y`. -/
def widgetAbsoluteXy (fuel : Nat) (s : Widgets) (widget : Nat) : Except Halt (Nat × Nat) :=
  addAncestors fuel s (s.widget widget).parent (u32 (s.widget widget).x, u32 (s.widget widget).y)

/-- What `widget_draw` draws for a widget itself: it calls the function of its class, or `gfx_rect`. -/
inductive DrawCall where
  | windowDraw
  | labelDraw
  | buttonDraw
  | editDraw
  | fileNavigatorDraw
  | gfxRect (x0 y0 x1 y1 color : Nat)
  deriving DecidableEq

/-- The default case of the `switch`. -/
def widgetRect (s : Widgets) (widget : Nat) : DrawCall :=
  let w := s.widget widget
  if w.parent ≠ null then
    let parent := s.widget w.parent
    let x0 := u32 (w.x + parent.paddingLeft)
    let x1 := u32 (x0 + w.w)
    let y0 := u32 (w.y + parent.paddingTop)
    let y1 := u32 (y0 + w.h)
    let right := sub32 parent.w parent.paddingRight
    let x1 := if x1 > right then sub32 x1 (sub32 x1 right) else x1
    let y1 := if y1 > sub32 parent.h parent.paddingBottom then
        -- the source subtracts from the width of the parent here
        sub32 y1 (sub32 y1 (sub32 parent.w parent.paddingBottom))
      else y1
    .gfxRect (u32 (x0 + parent.x)) (u32 (y0 + parent.y)) (u32 (x1 + parent.x)) (u32 (y1 + parent.y)) w.bgcolor
  else .gfxRect w.x w.y (u32 (w.x + w.w)) (u32 (w.y + w.h)) w.bgcolor

/-- The `switch` of `widget_draw`. -/
def drawCall (s : Widgets) (widget : Nat) : Option DrawCall :=
  let cls := (s.widget widget).cls
  if cls = wWindow then some .windowDraw
  else if cls = wLabel then some .labelDraw
  else if cls = wButton then some .buttonDraw
  else if cls = wEdit then some .editDraw
  else if cls = wFileNavigator then some .fileNavigatorDraw
  else if (s.widget widget).visible = .parent then some (widgetRect s widget)
  else none

/-- A widget that `widget_draw` comes to, and what it calls there. -/
structure Visit where
  widget : Nat
  call : Option DrawCall

mutual

/-- `widget_draw`: its visits in order. -/
def widgetDraw : Nat → Widgets → Nat → Except Halt (List Visit)
  | 0, _, _ => .error .loops
  | fuel + 1, s, widget =>
    if widget = null then .ok []
    else
      let visit : Visit := ⟨widget, drawCall s widget⟩
      if (s.widget widget).onPaint.any fun paint => paint widget = 0 then .ok [visit]
      else do
        let visits ← drawSiblings fuel s (s.widget widget).child
        .ok (visit :: visits)

/-- The loop of `widget_draw` over the children, from `chld` on. -/
def drawSiblings : Nat → Widgets → Nat → Except Halt (List Visit)
  | 0, _, _ => .error .loops
  | fuel + 1, s, chld =>
    if chld = null then .ok []
    else do
      let visits ← widgetDraw fuel s chld
      let rest ← drawSiblings fuel s (s.widget chld).next
      .ok (visits ++ rest)

end

end DiyOS
