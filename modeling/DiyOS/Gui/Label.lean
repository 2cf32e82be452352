import DiyOS.Gui.Traversal

/-!
# Labels (`gui/widgets/label.c`)

The size of a label follows from its text and from the width inside its parent, and its text is drawn in
lines that fit there. Both functions compute this width with unsigned subtractions.

* **`labelSizeRequest_eq`**, **`label_size_iff`** — the size is not assigned for a text that fits, and
  for one that does not fit into a width of zero there is none.
* **`labelDrawLoop_eq`**, **`label_draw_iff`** — the characters stand in lines of equal length, down to the
  lower edge of the parent; this holds unless the height inside the parent is negative.
-/

namespace DiyOS

open Word

/-! ## The source

A character is eight pixels wide, and a label wraps at the inner width of its parent. -/

def widgetMove (s : Widgets) (widget x y : Nat) : Widgets :=
  if widget = null then s else s.setWidget widget fun w => { w with x := x, y := y }

/-- A button with another place and size. -/
def Widgets.resized (s : Widgets) (btn x y w h : Nat) : Widgets :=
  (widgetMove s btn x y).setWidget btn fun widget => { widget with w := w, h := h }

def buttonSize (s : Widgets) (btn x y w h : Nat) : Except Halt Widgets :=
  if btn = null then .ok s else labelSizeRequest (s.resized btn x y w h) (s.button btn).label

/-- What `label_draw` calls. -/
inductive LabelCall where
  | gfxRect (x0 y0 x1 y1 color : Nat)
  | gfxPutchar (x y fgcolor bgcolor : Nat) (c : UInt8)
  deriving DecidableEq

/-- The width inside a widget, and the height, as the source computes them. -/
def innerWidthWord (p : Widget) : Nat := sub32 (sub32 p.w p.paddingLeft) p.paddingRight

def innerHeightWord (p : Widget) : Nat := sub32 (sub32 p.h p.paddingTop) p.paddingBottom

/-- The loop of `label_draw` over the characters that are left. -/
def labelDrawLoop (lbl : Label) (w parent : Widget) (x0 y0 : Nat) :
    List UInt8 → Nat → Nat → List LabelCall
  | [], _, _ => []
  | c :: text, x, y =>
    let wide := u32 (u32 (x + 1) * 8 + w.paddingLeft + w.paddingRight) > innerWidthWord parent
    if wide ∧ lbl.wordwrap = noWrap then []
    else
      let x := if wide then 0 else x
      let y := if wide then u32 (y + (8 + lbl.linespace)) else y
      -- out of parent area!
      if y > innerHeightWord parent then []
      else
        .gfxPutchar (u32 (x0 + x * 8)) (u32 (y0 + y)) w.fgcolor w.bgcolor c
          :: labelDrawLoop lbl w parent x0 y0 text (u32 (x + 1)) y

/-- The area of the label, which is drawn first. -/
def labelArea (w : Widget) (x0 y0 : Nat) : LabelCall :=
  .gfxRect x0 y0 (u32 (x0 + w.w)) (u32 (y0 + w.h)) w.bgcolor

def labelDraw (fuel : Nat) (s : Widgets) (lbl : Nat) : Except Halt (List LabelCall) :=
  let w := s.widget lbl
  if w.parent = null then .ok []
  else do
    let (x0, y0) ← widgetAbsoluteXy fuel s lbl
    match (s.label lbl).text with
    | none => .ok [labelArea w x0 y0]
    | some text =>
      .ok (labelArea w x0 y0 :: labelDrawLoop (s.label lbl) w (s.widget w.parent)
        (u32 (x0 + w.paddingLeft)) (u32 (y0 + w.paddingTop)) text 0 0)

/-! ## The size

`label_size_request` assigns a size to labels that wrap, and leaves the other ones. The inner width is divided
by, and may be 0. -/

section

variable {s s₂ : Widgets} {lbl : Nat}

/-- What the size of a label is to depend on. -/
structure SameInputs (s s₂ : Widgets) (lbl : Nat) : Prop where
  text : (s₂.label lbl).text = (s.label lbl).text
  linespace : (s₂.label lbl).linespace = (s.label lbl).linespace
  paddingTop : (s₂.widget lbl).paddingTop = (s.widget lbl).paddingTop
  paddingLeft : (s₂.widget lbl).paddingLeft = (s.widget lbl).paddingLeft
  paddingRight : (s₂.widget lbl).paddingRight = (s.widget lbl).paddingRight
  paddingBottom : (s₂.widget lbl).paddingBottom = (s.widget lbl).paddingBottom
  parent : (s₂.widget lbl).parent = (s.widget lbl).parent
  parentWidget : s₂.widget (s.widget lbl).parent = s.widget (s.widget lbl).parent

/-- `label_size_request` returns, with the same size for all earlier texts and sizes of the label. -/
def LabelSized (s : Widgets) (lbl : Nat) : Prop :=
  ∀ s₂, SameInputs s s₂ lbl → ∃ t t₂, labelSizeRequest s lbl = .ok t ∧ labelSizeRequest s₂ lbl = .ok t₂
    ∧ (t₂.widget lbl).w = (t.widget lbl).w ∧ (t₂.widget lbl).h = (t.widget lbl).h

/-- The text of a label with a parent does not fit into the width inside the parent, which is not zero. -/
def LabelWraps (s : Widgets) (lbl : Nat) : Prop :=
  ∀ text, (s.label lbl).text = some text → (s.widget lbl).parent ≠ null →
    0 < innerWidthWord (s.widget (s.widget lbl).parent)
      ∧ innerWidthWord (s.widget (s.widget lbl).parent) < u32 (text.length * 8)

/-- The size that `label_size_request` assigns, if it assigns one; without a value where it divides by
zero. -/
def labelSize (lbl : Label) (w : Widget) (parent : Option Widget) : Except Halt (Option (Nat × Nat)) :=
  match lbl.text, parent with
  | none, _ => .ok (some (8, 8))
  | some text, none => .ok (some (u32 (text.length * 8), u32 (8 + w.paddingTop + w.paddingBottom)))
  | some text, some parent =>
    let txtWidth := u32 (text.length * 8)
    let inner := innerWidthWord parent
    if txtWidth ≤ inner then .ok none
    else if inner = 0 then .error .undefined
    else .ok (some (inner, u32 ((txtWidth / inner + (if txtWidth % inner ≠ 0 then 1 else 0) + lbl.linespace) * 8
      + w.paddingTop + w.paddingBottom)))

/-- The parent of a widget, if it has one. -/
def Widgets.parentWidget (s : Widgets) (w : Nat) : Option Widget :=
  if (s.widget w).parent = null then none else some (s.widget (s.widget w).parent)

theorem labelSizeRequest_eq (hlbl : lbl ≠ null) :
    labelSizeRequest s lbl = (labelSize (s.label lbl) (s.widget lbl) (s.parentWidget lbl)).map fun size =>
      match size with
      | none => s
      | some (w, h) => s.setWidget lbl fun widget => { widget with w := w, h := h } := by
  unfold labelSizeRequest labelSize Widgets.parentWidget innerWidthWord
  rw [if_neg hlbl]
  cases (s.label lbl).text with
  | none => rfl
  | some text =>
    dsimp only
    -- the same tests in the other order
    by_cases hparent : (s.widget lbl).parent = null
    · rw [if_neg (not_not_intro hparent), if_pos hparent]
      rfl
    · rw [if_pos hparent, if_neg hparent]
      dsimp only
      generalize sub32 (sub32 (s.widget (s.widget lbl).parent).w _) _ = inner
      by_cases hfits : u32 (text.length * 8) ≤ inner
      · rw [if_pos hfits, if_neg (Nat.not_lt.mpr hfits)]
        rfl
      · rw [if_neg hfits, if_pos (Nat.lt_of_not_le hfits)]
        by_cases hzero : inner = 0
        · rw [if_pos hzero, if_pos hzero]
          rfl
        · rw [if_neg hzero, if_neg hzero]
          rfl

/-- The size that is assigned is a function of the inputs. -/
theorem SameInputs.labelSize_eq (h : SameInputs s s₂ lbl) :
    labelSize (s₂.label lbl) (s₂.widget lbl) (s₂.parentWidget lbl)
      = labelSize (s.label lbl) (s.widget lbl) (s.parentWidget lbl) := by
  unfold labelSize Widgets.parentWidget
  rw [h.text, h.linespace, h.paddingTop, h.paddingBottom, h.parent, h.parentWidget]

theorem labelSize_assigned_iff (s : Widgets) (lbl : Nat) :
    (∃ size, labelSize (s.label lbl) (s.widget lbl) (s.parentWidget lbl) = .ok (some size)) ↔ LabelWraps s lbl := by
  unfold labelSize LabelWraps Widgets.parentWidget
  cases (s.label lbl).text with
  | none => exact iff_of_true ⟨_, rfl⟩ nofun
  | some text =>
    by_cases hparent : (s.widget lbl).parent = null
    · rw [if_pos hparent]
      exact iff_of_true ⟨_, rfl⟩ fun _ _ hne => absurd hparent hne
    · rw [if_neg hparent]
      dsimp only
      generalize innerWidthWord (s.widget (s.widget lbl).parent) = inner
      have hwraps : (∀ text', some text = some text' → (s.widget lbl).parent ≠ null →
          0 < inner ∧ inner < u32 (text'.length * 8)) ↔ 0 < inner ∧ inner < u32 (text.length * 8) :=
        ⟨fun h => h text rfl hparent, fun h text' heq _ => Option.some.inj heq ▸ h⟩
      rw [hwraps]
      by_cases hfits : u32 (text.length * 8) ≤ inner
      · rw [if_pos hfits]
        exact iff_of_false (fun ⟨_, h⟩ => nomatch h) (by omega)
      · rw [if_neg hfits]
        by_cases hzero : inner = 0
        · rw [if_pos hzero]
          exact iff_of_false (fun ⟨_, h⟩ => nomatch h) (by omega)
        · rw [if_neg hzero]
          exact iff_of_true ⟨_, rfl⟩ (by omega)

/-- A label gets the size of its text exactly when it has no text, no parent, or a text wider than its parent. -/
theorem labelSized_iff (hlbl : lbl ≠ null) (hparent : (s.widget lbl).parent ≠ lbl) :
    LabelSized s lbl ↔ LabelWraps s lbl := by
  rw [← labelSize_assigned_iff]
  refine ⟨fun h => ?_, fun ⟨⟨w, h⟩, hsize⟩ s₂ hsame => ?_⟩
  · -- a label that is one wider
    let s₂ := s.setWidget lbl fun widget => { widget with w := widget.w + 1 }
    have hself : s₂.widget lbl = { s.widget lbl with w := (s.widget lbl).w + 1 } := setWidget_self _ _ _
    have hsame : SameInputs s s₂ lbl := by
      refine ⟨rfl, rfl, ?_, ?_, ?_, ?_, ?_, setWidget_of_ne _ _ _ hparent⟩ <;> rw [hself]
    obtain ⟨t, t₂, ht, ht₂, hw, _⟩ := h s₂ hsame
    rw [labelSizeRequest_eq hlbl] at ht ht₂
    rw [hsame.labelSize_eq] at ht₂
    cases hsize : labelSize (s.label lbl) (s.widget lbl) (s.parentWidget lbl) with
    | error e =>
      rw [hsize] at ht
      cases ht
    | ok size =>
      cases size with
      | some size => exact ⟨size, rfl⟩
      | none =>
        rw [hsize] at ht ht₂
        cases ht
        cases ht₂
        rw [hself] at hw
        exact absurd hw (Nat.succ_ne_self _)
  · have hsize₂ := hsame.labelSize_eq.trans hsize
    refine ⟨_, _, (labelSizeRequest_eq hlbl).trans (by rw [hsize]; rfl),
      (labelSizeRequest_eq hlbl).trans (by rw [hsize₂]; rfl), ?_, ?_⟩
    · rw [setWidget_self, setWidget_self]
    · rw [setWidget_self, setWidget_self]

end

/-! The three ways in which the size is requested. -/

/-- A label with another text. -/
def Widgets.withText (s : Widgets) (lbl : Nat) (text : Option (List UInt8)) (mem : Nat) : Widgets :=
  { s with label := Function.update s.label lbl { s.label lbl with text := if mem = null then none else text } }

/-- A label that `label_create` has initialised, before it is linked to its parent. -/
def Widgets.newLabel (s : Widgets) (mem : Nat) : Widgets :=
  widgetSetPadding { s with
    widget := Function.update s.widget mem { Widget.zero with
      cls := wLabel, visible := .parent, fgcolor := 0x606060, bgcolor := 0xE0E0E0 }
    label := Function.update s.label mem { text := none, linespace := 0, wordwrap := charWrap } } mem 2 0 0 0

/-- **Label sizing.** Whatever the earlier texts and sizes of a label, `label_size_request` returns with a
size that the text, the line space, the paddings and the parent determine, if and only if the label has no
text, or no parent, or a text that is wider than the space inside its parent, which is not zero. It is
requested in the states in which `label_set_text`, `label_create` and `button_size` call it. -/
theorem label_size_iff (hlbl : lbl ≠ null) (hparent : (s.widget lbl).parent ≠ lbl) :
    (LabelSized s lbl ↔ LabelWraps s lbl)
      ∧ (∀ text mem, labelSetText s lbl text mem = labelSizeRequest (s.withText lbl text mem) lbl)
      ∧ (∀ fuel mem textMem text parent, mem ≠ null →
        labelCreate fuel s mem textMem text parent
          = widgetSetParent fuel (s.newLabel mem) mem parent >>= fun u =>
            labelSizeRequest (u.withText mem text textMem) mem >>= fun v =>
              .ok (mem, labelSetLinespace v mem 2))
      ∧ ∀ btn x y w h, btn ≠ null →
        buttonSize s btn x y w h = labelSizeRequest (s.resized btn x y w h) (s.button btn).label := by
  refine ⟨labelSized_iff hlbl hparent, ?_, ?_, ?_⟩
  · exact fun text mem => if_neg hlbl
  · intro fuel mem textMem text parent hmem
    unfold labelCreate labelSetText
    rw [if_neg hmem]
    simp only [if_neg hmem]
    rfl
  · exact fun btn x y w h hbtn => if_neg hbtn

/-- The label of a button, whose text of 40 pixels does not fit into 26. -/
theorem label_size_wraps : ∃ s, buttonCreate 3 noWidgets 16 24 32 (some [68, 105, 121, 79, 83]) null = .ok (16, s)
    ∧ (s.widget 24).w = 26 ∧ (s.widget 24).h = 18 ∧ LabelSized s 24 := by
  refine ⟨_, rfl, rfl, rfl, (label_size_iff (by decide) (by decide)).1.mpr ?_⟩
  rintro _ ⟨⟩ _
  exact ⟨by decide, by decide⟩

/-- The text `go` fits into 26 pixels: the label is as wide as a text before it has made it, and without
one it has the width zero. In a button four pixels wide, the width is divided by zero. -/
theorem label_size_stale : ∃ s t u, buttonCreate 3 noWidgets 16 24 32 (some [103, 111]) null = .ok (16, s)
    ∧ labelSetText s 24 (some [68, 105, 121, 79, 83]) 32 = .ok t ∧ labelSetText t 24 (some [103, 111]) 32 = .ok u
    ∧ (s.label 24).text = (u.label 24).text ∧ (s.widget 24).w = 0 ∧ (u.widget 24).w = 26 ∧ ¬ LabelSized s 24
    ∧ buttonSize s 16 0 0 4 12 = .error .undefined := by
  refine ⟨_, _, _, rfl, rfl, rfl, rfl, rfl, rfl, fun h => ?_, rfl⟩
  have hwraps := (labelSized_iff (by decide) (by decide)).mp h [103, 111] rfl (by decide)
  exact absurd hwraps.2 (by decide)

/-! ## The text

The invariant of the drawing loop: the characters so far stand in rows of `lineLength`, and the cursor is behind
the last one. -/

/-- The width inside a widget, and the height. -/
def innerWidth (p : Widget) : Int := int32 p.w - p.paddingLeft - p.paddingRight

def innerHeight (p : Widget) : Int := int32 p.h - p.paddingTop - p.paddingBottom

/-- How many characters fit into a line of a label. -/
def lineLength (w parent : Widget) : Nat := (innerWidth parent - w.paddingLeft - w.paddingRight).toNat / 8

/-- The characters with their indices in the text, each in its place; the first one that lies below the
lower edge of the parent is not drawn, and no other behind it. -/
def labelChars (lbl : Label) (w parent : Widget) (x0 y0 : Nat) (chars : List (UInt8 × Nat)) : List LabelCall :=
  (chars.takeWhile fun ck => (((8 + lbl.linespace) * (ck.2 / lineLength w parent) : Nat) : Int)
      ≤ innerHeight parent).map fun ck =>
    .gfxPutchar (u32 (x0 + 8 * (ck.2 % lineLength w parent)))
      (u32 (y0 + (8 + lbl.linespace) * (ck.2 / lineLength w parent))) w.fgcolor w.bgcolor ck.1

section

variable {lbl : Label} {w parent : Widget}

theorem labelChars_cons (x0 y0 : Nat) (c : UInt8) (k : Nat) (chars : List (UInt8 × Nat)) :
    labelChars lbl w parent x0 y0 ((c, k) :: chars) =
      if (((8 + lbl.linespace) * (k / lineLength w parent) : Nat) : Int) ≤ innerHeight parent then
        .gfxPutchar (u32 (x0 + 8 * (k % lineLength w parent)))
          (u32 (y0 + (8 + lbl.linespace) * (k / lineLength w parent))) w.fgcolor w.bgcolor c
            :: labelChars lbl w parent x0 y0 chars
      else [] := by
  unfold labelChars
  rw [List.takeWhile_cons]
  split
  case isTrue h => rw [if_pos (of_decide_eq_true h), List.map_cons]
  case isFalse h => rw [if_neg fun hin => h (decide_eq_true hin), List.map_nil]

theorem labelChars_u32 (x0 y0 : Nat) (chars : List (UInt8 × Nat)) :
    labelChars lbl w parent (u32 x0) (u32 y0) chars = labelChars lbl w parent x0 y0 chars := by
  unfold labelChars
  simp only [u32_u32_add]

/-- At least one character fits. -/
def LineFits (w parent : Widget) : Prop := (w.paddingLeft + w.paddingRight + 8 : Int) ≤ innerWidth parent

theorem int32_bounds (n : Nat) : int32 n < 2147483648 ∧ (0 ≤ int32 n → (u32 n : Int) = int32 n) := by
  have hlt := u32_lt n
  unfold int32
  split <;> omega

/-- A difference that is not negative is computed right. -/
theorem sub32_sub32_eq {n a b : Nat} (h : 0 ≤ int32 n - a - b) :
    (sub32 (sub32 n a) b : Int) = int32 n - a - b := by
  obtain ⟨hlt, hword⟩ := int32_bounds n
  have hn := hword (by omega)
  rw [← sub32_u32 n a, sub32_of_le (by omega) (u32_lt n), sub32_of_le (by omega) (by omega)]
  omega

theorem lineLength_lt : lineLength w parent < 268435456 := by
  have hlt := (int32_bounds parent.w).1
  unfold lineLength innerWidth
  omega

/-- A line that begins within the parent, or is the first one: its offset is computed right, and so is the
test for the lower edge. -/
theorem below_iff (hheight : 0 ≤ innerHeight parent) (offset : Nat) :
    offset > innerHeightWord parent ↔ ¬ (offset : Int) ≤ innerHeight parent := by
  have hinner : (innerHeightWord parent : Int) = innerHeight parent := sub32_sub32_eq hheight
  omega

variable (hfits : LineFits w parent)
include hfits

theorem lineLength_pos : 0 < lineLength w parent := by
  unfold lineLength LineFits at *
  omega

/-- The test for the end of a line. -/
theorem wide_iff {x : Nat} (hx : x ≤ lineLength w parent) :
    u32 (u32 (x + 1) * 8 + w.paddingLeft + w.paddingRight) > innerWidthWord parent ↔ x = lineLength w parent := by
  have hinner : (innerWidthWord parent : Int) = innerWidth parent := by
    refine sub32_sub32_eq ?_
    unfold LineFits innerWidth at hfits
    omega
  have hlt := (int32_bounds parent.w).1
  unfold lineLength LineFits at *
  have hbound : innerWidth parent < 2147483648 := by
    unfold innerWidth
    omega
  rw [u32_of_lt (show x + 1 < 4294967296 by omega), u32_of_lt (by omega)]
  omega

/-- The loop, at the character `k` in the column `x` of the line `q`, where it may have reached the end of
the line. -/
theorem labelDrawLoop_eq (hwrap : lbl.wordwrap = charWrap) (hspace : lbl.linespace < 256)
    (hheight : 0 ≤ innerHeight parent) (x0 y0 : Nat) (text : List UInt8) {k x q : Nat}
    (hx : x ≤ lineLength w parent) (hk : k = lineLength w parent * q + x)
    (hq : (((8 + lbl.linespace) * q : Nat) : Int) ≤ innerHeight parent) :
    labelDrawLoop lbl w parent x0 y0 text x ((8 + lbl.linespace) * q)
      = labelChars lbl w parent x0 y0 (text.zipIdx k) := by
  induction text generalizing k x q with
  | nil => rfl
  | cons c text ih =>
    have hpos := lineLength_pos hfits
    have hwide := wide_iff hfits hx
    have hmode : ¬ lbl.wordwrap = noWrap := by
      rw [hwrap]
      decide
    -- the place of `c`, after the test for the end of the line
    obtain ⟨x', q', hcolumn, hline, hx', hk'⟩ : ∃ x' q',
        (if x = lineLength w parent then 0 else x) = x'
          ∧ (if x = lineLength w parent then u32 ((8 + lbl.linespace) * q + (8 + lbl.linespace))
              else (8 + lbl.linespace) * q) = (8 + lbl.linespace) * q'
          ∧ x' < lineLength w parent ∧ k = lineLength w parent * q' + x' := by
      have hlt := (int32_bounds parent.h).1
      by_cases hend : x = lineLength w parent
      · refine ⟨0, q + 1, if_pos hend, ?_, hpos, ?_⟩
        · rw [if_pos hend, u32_of_lt, Nat.mul_succ]
          unfold innerHeight at hq
          omega
        · rw [hk, hend, Nat.mul_succ, Nat.add_zero]
      · exact ⟨x, q, if_neg hend, if_neg hend, by omega, hk⟩
    have hdiv : k / lineLength w parent = q' := by
      rw [hk', Nat.mul_add_div hpos, Nat.div_eq_of_lt hx', Nat.add_zero]
    have hmod : k % lineLength w parent = x' := by
      rw [hk', Nat.mul_add_mod, Nat.mod_eq_of_lt hx']
    have hlt := @lineLength_lt w parent
    rw [labelDrawLoop, if_neg fun h => hmode h.2]
    simp only [hwide, hcolumn, hline, List.zipIdx_cons]
    rw [labelChars_cons, hdiv, hmod]
    by_cases hin : (((8 + lbl.linespace) * q' : Nat) : Int) ≤ innerHeight parent
    · have hrest := @ih (k + 1) (x' + 1) q' hx' (by rw [hk', Nat.add_assoc]) hin
      rw [if_neg fun h => (below_iff hheight _).mp h hin, if_pos hin,
        u32_of_lt (show x' + 1 < 4294967296 by omega), hrest, Nat.mul_comm 8 x']
    · rw [if_pos ((below_iff hheight _).mpr hin), if_neg hin]

/-- The first character is always drawn. -/
theorem labelDrawLoop_ne_nil (x0 y0 : Nat) (c : UInt8) (text : List UInt8) :
    labelDrawLoop lbl w parent x0 y0 (c :: text) 0 0 ≠ [] := by
  have hwide := (wide_iff hfits (Nat.zero_le _)).not.mpr (Nat.ne_of_lt (lineLength_pos hfits))
  rw [labelDrawLoop, if_neg fun h => hwide h.1]
  simp only [if_neg hwide]
  rw [if_neg (Nat.not_lt_zero _)]
  exact List.cons_ne_nil _ _

end

section

variable {s : Widgets} {lbl : Nat} {text : List UInt8} {x0 y0 : Nat}

/-- **Label layout.** A label with `CHAR_WRAP`, in a parent in which at least one character fits, draws its
area and then the characters in lines, down to the lower edge of the parent, if and only if the height
inside the parent is not negative, or there is no character. -/
theorem label_draw_iff (hparent : (s.widget lbl).parent ≠ null)
    (hxy : Settles (fun fuel => widgetAbsoluteXy fuel s lbl) (.ok (x0, y0)))
    (htext : (s.label lbl).text = some text) (hwrap : (s.label lbl).wordwrap = charWrap)
    (hspace : (s.label lbl).linespace < 256)
    (hfits : LineFits (s.widget lbl) (s.widget (s.widget lbl).parent)) :
    Settles (fun fuel => labelDraw fuel s lbl)
        (.ok (labelArea (s.widget lbl) x0 y0
          :: labelChars (s.label lbl) (s.widget lbl) (s.widget (s.widget lbl).parent)
            (x0 + (s.widget lbl).paddingLeft) (y0 + (s.widget lbl).paddingTop) text.zipIdx))
      ↔ text = [] ∨ 0 ≤ innerHeight (s.widget (s.widget lbl).parent) := by
  -- apart from the loop, the two sides are the same
  have hdraw : Settles (fun fuel => labelDraw fuel s lbl) (.ok (labelArea (s.widget lbl) x0 y0
      :: labelDrawLoop (s.label lbl) (s.widget lbl) (s.widget (s.widget lbl).parent)
        (u32 (x0 + (s.widget lbl).paddingLeft)) (u32 (y0 + (s.widget lbl).paddingTop)) text 0 0)) := by
    obtain ⟨enough, hxy⟩ := hxy
    refine ⟨enough, fun fuel hfuel => ?_⟩
    have hcall : widgetAbsoluteXy fuel s lbl = .ok (x0, y0) := hxy fuel hfuel
    show labelDraw fuel s lbl = _
    unfold labelDraw
    rw [if_neg hparent, hcall, htext]
    rfl
  refine ⟨fun h => ?_, fun h => ?_⟩
  -- with a negative height nothing should be drawn, but the first character is
  · rw [or_iff_not_imp_right]
    intro hheight
    have heq := (List.cons.inj (Except.ok.inj (hdraw.unique h))).2
    cases text with
    | nil => rfl
    | cons c text =>
      rw [List.zipIdx_cons, labelChars_cons, if_neg] at heq
      · exact absurd heq (labelDrawLoop_ne_nil hfits _ _ c text)
      · omega
  -- otherwise the loop draws what it should, by its invariant
  · have hloop : labelDrawLoop (s.label lbl) (s.widget lbl) (s.widget (s.widget lbl).parent)
        (u32 (x0 + (s.widget lbl).paddingLeft)) (u32 (y0 + (s.widget lbl).paddingTop)) text 0 0
        = labelChars (s.label lbl) (s.widget lbl) (s.widget (s.widget lbl).parent)
          (x0 + (s.widget lbl).paddingLeft) (y0 + (s.widget lbl).paddingTop) text.zipIdx := by
      rcases h with rfl | hheight
      · rfl
      · rw [← labelChars_u32]
        exact @labelDrawLoop_eq _ _ _ hfits hwrap hspace hheight _ _ text 0 0 0 (Nat.zero_le _) rfl hheight
    rw [← hloop]
    exact hdraw

end

/-- A label with the text `text` in a window of `w` times `h` pixels. -/
def windowLabel (w h : Nat) (text : List UInt8) : Except Halt (Nat × Widgets) :=
  windowCreate 3 noWidgets 16 null w h >>= fun r => labelCreate 3 r.2 24 32 (some text) 16

/-- In a window of 40 times 20 pixels there is room for four characters in a line, and for two lines: the
text `ABCDEFGHI` is wrapped twice, and its last character is not drawn. -/
theorem label_draw_wrapped : ∃ s, windowLabel 40 20 [65, 66, 67, 68, 69, 70, 71, 72, 73] = .ok (24, s)
    ∧ Settles (fun fuel => labelDraw fuel s 24)
      (.ok [.gfxRect 303 24 339 42 0xE0E0E0,
        .gfxPutchar 303 26 0x606060 0xE0E0E0 65, .gfxPutchar 311 26 0x606060 0xE0E0E0 66,
        .gfxPutchar 319 26 0x606060 0xE0E0E0 67, .gfxPutchar 327 26 0x606060 0xE0E0E0 68,
        .gfxPutchar 303 36 0x606060 0xE0E0E0 69, .gfxPutchar 311 36 0x606060 0xE0E0E0 70,
        .gfxPutchar 319 36 0x606060 0xE0E0E0 71, .gfxPutchar 327 36 0x606060 0xE0E0E0 72]) := by
  refine ⟨_, rfl, ?_⟩
  refine (@label_draw_iff _ 24 [65, 66, 67, 68, 69, 70, 71, 72, 73] 303 24 (by decide)
    ⟨3, fun fuel hfuel => ?_⟩ rfl rfl (by decide) (by unfold LineFits; decide)).mpr (Or.inr (by decide))
  obtain ⟨fuel, rfl⟩ := Nat.exists_eq_add_of_le' hfuel
  rfl

/-- In a window of 3 pixels, of which the paddings take 4: the height inside it is -1, which is below the
offset of the first line, and the letter is drawn all the same. -/
theorem label_draw_outside : ∃ s, windowLabel 100 3 [65] = .ok (24, s)
    ∧ LineFits (s.widget 24) (s.widget 16) ∧ innerHeight (s.widget 16) = -1
    ∧ labelChars (s.label 24) (s.widget 24) (s.widget 16) 273 26 [(65, 0)] = []
    ∧ Settles (fun fuel => labelDraw fuel s 24)
      (.ok [.gfxRect 273 24 273 24 0xE0E0E0, .gfxPutchar 273 26 0x606060 0xE0E0E0 65]) := by
  refine ⟨_, rfl, by unfold LineFits; decide, by decide, by decide, 3, fun fuel hfuel => ?_⟩
  obtain ⟨fuel, rfl⟩ := Nat.exists_eq_add_of_le' hfuel
  rfl

end DiyOS
