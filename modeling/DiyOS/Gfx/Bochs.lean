import DiyOS.Basic
import DiyOS.Lib.Raster

/-!
# The Bochs graphics driver (`drivers/gfx/bochs.c`)

The frame buffer holds two pages of `w * h` words, one after the other; the driver draws into the page
`bochs_vbe_fb_current`. Addresses count words from `bochs_vbe_fb`.

* **`putPixels_word`** — drawing pixels is a list of stores.
* **`bochs_vbe_rect_fills_iff`** — when a rectangle is clipped to the screen.
-/

namespace DiyOS

open Word

/-- The words of the frame buffer; `stored` are the addresses of the stores so far, the last one first. -/
structure Vram where
  word : Nat → Nat
  stored : List Nat

def Vram.store (v : Vram) (a c : Nat) : Vram := ⟨Function.update v.word a c, a :: v.stored⟩

/-- The state of the driver; `yOffset` is what `VBE_DISPI_INDEX_Y_OFFSET` holds, the first row that is
displayed. -/
structure Bochs where
  fb : Vram
  w : Nat
  h : Nat
  current : Fin 2
  updateX0 : Nat
  updateX1 : Nat
  updateY0 : Nat
  updateY1 : Nat
  yOffset : Nat
  -- `w` and `h` are of type `uint16_t`
  hw : w < 65536
  hh : h < 65536

/-- The address of `bochs_vbe_fb_double[bochs_vbe_fb_current]`. -/
def Bochs.page (s : Bochs) : Nat := if s.current = 0 then 0 else s.w * s.h

/-- `BOCHS_AREA_GROW`. -/
def Bochs.areaGrow (s : Bochs) (x y : Nat) : Bochs :=
  { s with
    updateX1 := if x > s.updateX1 then x else s.updateX1
    updateX0 := if x < s.updateX0 then x else s.updateX0
    updateY1 := if y > s.updateY1 then y else s.updateY1
    updateY0 := if y < s.updateY0 then y else s.updateY0 }

/-- `bochs_vbe_putpixel_32`. -/
def bochsVbePutpixel32 (s : Bochs) (x y c : Nat) : Bochs :=
  if x > s.w ∨ y > s.h then s
  else
    let offset := u32 (y * s.w + x)
    { s with fb := s.fb.store (s.page + offset) c }.areaGrow x y

/-- `bochs_vbe_rect`. -/
def bochsVbeRect (s : Bochs) (x0 y0 x1 y1 color : Nat) : Bochs :=
  let (y0, y1) := if y0 > y1 then (y1, y0) else (y0, y1)
  let (x0, x1) := if x0 > x1 then (x1, x0) else (x0, x1)
  (List.range (x1 - x0)).foldl (fun s i =>
    (List.range (y1 - y0)).foldl (fun s j => bochsVbePutpixel32 s (x0 + i) (y0 + j) color) s) s

/-- `bochs_vbe_flip`. -/
def bochsVbeFlip (s : Bochs) : Bochs :=
  if s.updateX1 > 0 then
    { s with
      yOffset := u16 (s.h * s.current)
      current := if s.current = 0 then 1 else 0
      updateX0 := 0xFFFFFFFF
      updateY0 := 0xFFFFFFFF
      updateX1 := 0
      updateY1 := 0 }
  else s

/-! ## Pixels

Everything that is drawn goes through `bochs_vbe_putpixel_32`, so that a drawing is a list of pixels, and its
effect on the frame buffer a list of stores (`putPixels_word`). Whether a pixel is stored, and where, does not
change while drawing (`SameMode`). -/

structure Pixel where
  x : Nat
  y : Nat
  c : Nat

/-- The pixels `ps`, put one after the other. -/
def putPixels (s : Bochs) (ps : List Pixel) : Bochs :=
  ps.foldl (fun s p => bochsVbePutpixel32 s p.x p.y p.c) s

/-- The driver takes the pixel. -/
def Bochs.Accepts (s : Bochs) (p : Pixel) : Prop := p.x ≤ s.w ∧ p.y ≤ s.h

instance (s : Bochs) (p : Pixel) : Decidable (s.Accepts p) := by
  unfold Bochs.Accepts
  infer_instance

/-- The address that the pixel is stored at. -/
def Bochs.address (s : Bochs) (p : Pixel) : Nat := s.page + Raster.index s.w p.x p.y

/-- The stores of the pixels `ps`. -/
def Bochs.stores (s : Bochs) : List Pixel → List (Nat × Nat)
  | [] => []
  | p :: ps => if s.Accepts p then (s.address p, p.c) :: s.stores ps else s.stores ps

section

variable {s : Bochs} {p : Pixel}

/-- The stores are those of the accepted pixels. -/
theorem mem_stores {ps : List Pixel} {v : Nat × Nat} :
    v ∈ s.stores ps ↔ ∃ p ∈ ps, s.Accepts p ∧ v = (s.address p, p.c) := by
  induction ps with
  | nil => simp [Bochs.stores]
  | cons p ps ih =>
    rw [Bochs.stores, List.exists_mem_cons_iff, ← ih]
    by_cases h : s.Accepts p
    · rw [if_pos h, List.mem_cons]
      simp only [h, true_and]
    · rw [if_neg h]
      simp only [h, false_and, false_or]

theorem putpixel_of_not_accepts (h : ¬ s.Accepts p) : bochsVbePutpixel32 s p.x p.y p.c = s := by
  unfold Bochs.Accepts at h
  exact if_pos (by omega)

/-- The offset of a pixel does not wrap. -/
theorem putpixel_of_accepts (h : s.Accepts p) :
    bochsVbePutpixel32 s p.x p.y p.c
      = { s with fb := s.fb.store (s.address p) p.c }.areaGrow p.x p.y := by
  have hoffset : u32 (p.y * s.w + p.x) = Raster.index s.w p.x p.y := by
    have hw := s.hw
    have hh := s.hh
    have hmul : p.y * s.w ≤ 65535 * 65535 :=
      Nat.mul_le_mul (Nat.le_trans h.2 (by omega)) (by omega)
    have hx := h.1
    exact u32_of_lt (by omega)
  unfold bochsVbePutpixel32
  rw [if_neg (by unfold Bochs.Accepts at h; omega)]
  simp only [hoffset]
  rfl

/-- What putting pixels does not change. -/
structure SameMode (s s' : Bochs) : Prop where
  w : s'.w = s.w
  h : s'.h = s.h
  current : s'.current = s.current
  yOffset : s'.yOffset = s.yOffset

theorem putpixel_mode (s : Bochs) (p : Pixel) : SameMode s (bochsVbePutpixel32 s p.x p.y p.c) := by
  by_cases h : s.Accepts p
  · rw [putpixel_of_accepts h]
    exact ⟨rfl, rfl, rfl, rfl⟩
  · rw [putpixel_of_not_accepts h]
    exact ⟨rfl, rfl, rfl, rfl⟩

theorem SameMode.accepts {s' : Bochs} (h : SameMode s s') (p : Pixel) :
    s'.Accepts p ↔ s.Accepts p := by
  unfold Bochs.Accepts
  rw [h.w, h.h]

theorem SameMode.page {s' : Bochs} (h : SameMode s s') : s'.page = s.page := by
  unfold Bochs.page
  rw [h.w, h.h, h.current]

theorem SameMode.address {s' : Bochs} (h : SameMode s s') (p : Pixel) : s'.address p = s.address p := by
  unfold Bochs.address
  rw [h.page, h.w]

theorem SameMode.stores {s' : Bochs} (h : SameMode s s') (ps : List Pixel) :
    s'.stores ps = s.stores ps := by
  induction ps with
  | nil => rfl
  | cons p ps ih =>
    rw [Bochs.stores, Bochs.stores, ih, h.address]
    simp only [h.accepts]

theorem putPixels_cons (s : Bochs) (p : Pixel) (ps : List Pixel) :
    putPixels s (p :: ps) = putPixels (bochsVbePutpixel32 s p.x p.y p.c) ps := rfl

/-- **Drawing** is a list of stores. -/
theorem putPixels_word (s : Bochs) (ps : List Pixel) :
    (putPixels s ps).fb.word = Raster.plot s.fb.word (s.stores ps) := by
  induction ps generalizing s with
  | nil => rfl
  | cons p ps ih =>
    rw [putPixels_cons, ih, (putpixel_mode s p).stores]
    by_cases h : s.Accepts p
    · rw [Bochs.stores, if_pos h, Raster.plot_cons, putpixel_of_accepts h]
      rfl
    · rw [Bochs.stores, if_neg h, putpixel_of_not_accepts h]

/-- A word that no pixel is stored at. -/
theorem putPixels_word_of_ne (s : Bochs) {ps : List Pixel} {a : Nat}
    (h : ∀ p ∈ ps, s.Accepts p → s.address p ≠ a) : (putPixels s ps).fb.word a = s.fb.word a := by
  rw [putPixels_word]
  refine Raster.plot_of_notMem _ fun v hv => ?_
  obtain ⟨p, hp, haccepts, rfl⟩ := mem_stores.mp hv
  exact h p hp haccepts

/-- A word that pixels of one colour are stored at. -/
theorem putPixels_word_of_mem (s : Bochs) {ps : List Pixel} {a c : Nat}
    (hmem : ∃ p ∈ ps, s.Accepts p ∧ s.address p = a)
    (huniq : ∀ p ∈ ps, s.Accepts p → s.address p = a → p.c = c) : (putPixels s ps).fb.word a = c := by
  rw [putPixels_word]
  refine Raster.plot_of_mem _ ?_ fun v hv hva => ?_
  · obtain ⟨p, hp, haccepts, ha⟩ := hmem
    exact ⟨_, mem_stores.mpr ⟨p, hp, haccepts, rfl⟩, ha⟩
  · obtain ⟨p, hp, haccepts, rfl⟩ := mem_stores.mp hv
    exact huniq p hp haccepts hva

end

/-! ## Rectangles

`bochs_vbe_rect` orders its corners first. The right and the lower side do not belong to the rectangle; but the
test of the driver lets the column `w` and the row `h` pass, whose pixels lie on the screen at other places. -/

/-- The pixels of a rectangle, column by column. -/
def rectPixels (x0 y0 x1 y1 c : Nat) : List Pixel :=
  (List.range (x1 - x0)).flatMap fun i => (List.range (y1 - y0)).map fun j => ⟨x0 + i, y0 + j, c⟩

/-- The pixels of the rectangle. -/
theorem mem_rectPixels {x0 y0 x1 y1 c : Nat} {p : Pixel} :
    p ∈ rectPixels x0 y0 x1 y1 c ↔ (x0 ≤ p.x ∧ p.x < x1) ∧ (y0 ≤ p.y ∧ p.y < y1) ∧ p.c = c := by
  unfold rectPixels
  simp only [List.mem_flatMap, List.mem_map, List.mem_range]
  constructor
  · rintro ⟨i, hi, j, hj, rfl⟩
    simp only [and_true]
    omega
  · rintro ⟨hx, hy, hc⟩
    refine ⟨p.x - x0, by omega, p.y - y0, by omega, ?_⟩
    rw [Nat.add_sub_cancel' hx.1, Nat.add_sub_cancel' hy.1, ← hc]

/-- The two loops draw these pixels, with the corners in order. -/
theorem bochsVbeRect_eq (s : Bochs) (x0 y0 x1 y1 c : Nat) :
    bochsVbeRect s x0 y0 x1 y1 c
      = putPixels s (rectPixels (min x0 x1) (min y0 y1) (max x0 x1) (max y0 y1) c) := by
  have hy : (if y0 > y1 then (y1, y0) else (y0, y1)) = (min y0 y1, max y0 y1) := by
    split
    · rw [Nat.min_eq_right (by omega), Nat.max_eq_left (by omega)]
    · rw [Nat.min_eq_left (by omega), Nat.max_eq_right (by omega)]
  have hx : (if x0 > x1 then (x1, x0) else (x0, x1)) = (min x0 x1, max x0 x1) := by
    split
    · rw [Nat.min_eq_right (by omega), Nat.max_eq_left (by omega)]
    · rw [Nat.min_eq_left (by omega), Nat.max_eq_right (by omega)]
  unfold bochsVbeRect putPixels rectPixels
  simp only [hx, hy, List.foldl_flatMap, List.foldl_map]

/-- The rectangle sets exactly its pixels on the screen to its colour, whatever the frame buffer holds. -/
def FillsExactly (s : Bochs) (x0 y0 x1 y1 : Nat) : Prop :=
  ∀ fb c, (∀ x y, min x0 x1 ≤ x → x < max x0 x1 → min y0 y1 ≤ y → y < max y0 y1 → x < s.w → y < s.h →
      (bochsVbeRect { s with fb := fb } x0 y0 x1 y1 c).fb.word (s.page + Raster.index s.w x y) = c)
    ∧ ∀ a, (∀ x y, min x0 x1 ≤ x → x < max x0 x1 → min y0 y1 ≤ y → y < max y0 y1 → x < s.w → y < s.h →
        s.page + Raster.index s.w x y ≠ a) →
      (bochsVbeRect { s with fb := fb } x0 y0 x1 y1 c).fb.word a = fb.word a

/-- The rectangle has no pixel in the column `w` or the row `h`. -/
def NoStray (s : Bochs) (x0 y0 x1 y1 : Nat) : Prop :=
  ∀ p ∈ rectPixels (min x0 x1) (min y0 y1) (max x0 x1) (max y0 y1) 0, s.Accepts p → p.x < s.w ∧ p.y < s.h

/-- A rectangle with a stray pixel has one in the column `w` or in the row `h`. -/
theorem noStray_iff (s : Bochs) (x0 y0 x1 y1 : Nat) :
    NoStray s x0 y0 x1 y1 ↔ x0 = x1 ∨ y0 = y1 ∨ s.w < min x0 x1 ∨ s.h < min y0 y1
      ∨ (max x0 x1 ≤ s.w ∧ max y0 y1 ≤ s.h) := by
  unfold NoStray Bochs.Accepts
  simp only [mem_rectPixels]
  constructor
  · intro h
    by_contra hcond
    by_cases hwide : s.w < max x0 x1
    · have hcolumn : s.w < s.w ∧ min y0 y1 < s.h :=
        h ⟨s.w, min y0 y1, 0⟩ ⟨⟨by simp only; omega, hwide⟩, ⟨Nat.le_refl _, by simp only; omega⟩, rfl⟩
          ⟨Nat.le_refl _, by simp only; omega⟩
      exact Nat.lt_irrefl _ hcolumn.1
    · have hrow : min x0 x1 < s.w ∧ s.h < s.h :=
        h ⟨min x0 x1, s.h, 0⟩ ⟨⟨Nat.le_refl _, by simp only; omega⟩, by simp only; omega, rfl⟩
          ⟨by simp only; omega, Nat.le_refl _⟩
      exact Nat.lt_irrefl _ hrow.2
  · intro hcond p hp haccepts
    omega

/-- Of the pixels that are not on the screen, one is stored at a word of no other pixel. -/
theorem exists_stray {s : Bochs} {x0 y0 x1 y1 : Nat} (h : ¬ NoStray s x0 y0 x1 y1) :
    ∃ p : Pixel, (min x0 x1 ≤ p.x ∧ p.x < max x0 x1) ∧ (min y0 y1 ≤ p.y ∧ p.y < max y0 y1) ∧ s.Accepts p
      ∧ ∀ x y, y < max y0 y1 → x < s.w → y < s.h → Raster.index s.w x y ≠ Raster.index s.w p.x p.y := by
  rw [noStray_iff] at h
  by_cases hlow : s.h < max y0 y1
  · -- a pixel of the row `h` is stored behind the page
    refine ⟨⟨min x0 x1, s.h, 0⟩, by simp only; omega, by simp only; omega,
      ⟨by simp only; omega, Nat.le_refl _⟩, ?_⟩
    intro x y _ hx hy heq
    have hinside := Raster.index_lt hx hy
    rw [heq, Nat.mul_comm] at hinside
    exact absurd hinside (Nat.not_lt.mpr (Nat.le_add_right _ _))
  · -- the last pixel of the column `w` is stored at the row behind the rectangle
    refine ⟨⟨s.w, max y0 y1 - 1, 0⟩, by simp only; omega, by simp only; omega,
      ⟨Nat.le_refl _, by simp only; omega⟩, ?_⟩
    intro x y hrow hx hy heq
    have hnext : y = max y0 y1 - 1 + 1 :=
      (Raster.index_inj hx (Nat.zero_lt_of_lt hx) (heq.trans (Raster.index_width _ _))).2
    omega

/-- **Clipping.** `bochs_vbe_rect` sets exactly the pixels of the rectangle on the screen if and only if the
rectangle is empty, or begins beyond the column `w` or the row `h`, or ends on the screen. -/
theorem bochs_vbe_rect_fills_iff (s : Bochs) (x0 y0 x1 y1 : Nat) :
    FillsExactly s x0 y0 x1 y1 ↔ x0 = x1 ∨ y0 = y1 ∨ s.w < min x0 x1 ∨ s.h < min y0 y1
      ∨ (max x0 x1 ≤ s.w ∧ max y0 y1 ≤ s.h) := by
  rw [← noStray_iff]
  constructor
  · intro hfills
    by_contra hstray
    -- a stray pixel is stored where no pixel of the rectangle should be
    obtain ⟨p, hx, hy, haccepts, happart⟩ := exists_stray hstray
    have hkept := (hfills ⟨fun _ => 0, []⟩ 1).2 (s.page + Raster.index s.w p.x p.y)
      fun x y _ _ _ hlast hxw hyh heq => happart x y hlast hxw hyh (Nat.add_left_cancel heq)
    have hset := @putPixels_word_of_mem { s with fb := ⟨fun _ => 0, []⟩ }
      (rectPixels (min x0 x1) (min y0 y1) (max x0 x1) (max y0 y1) 1)
      (s.page + Raster.index s.w p.x p.y) 1
      ⟨⟨p.x, p.y, 1⟩, mem_rectPixels.mpr ⟨hx, hy, rfl⟩, haccepts, rfl⟩
      fun q hq _ _ => (mem_rectPixels.mp hq).2.2
    rw [bochsVbeRect_eq, hset] at hkept
    cases hkept
  · intro hclean fb c
    have hscreen : ∀ q ∈ rectPixels (min x0 x1) (min y0 y1) (max x0 x1) (max y0 y1) c, s.Accepts q →
        q.x < s.w ∧ q.y < s.h := by
      intro q hq haccepts
      obtain ⟨hx, hy, _⟩ := mem_rectPixels.mp hq
      exact hclean ⟨q.x, q.y, 0⟩ (mem_rectPixels.mpr ⟨hx, hy, rfl⟩) haccepts
    rw [bochsVbeRect_eq]
    constructor
    · intro x y hx0 hx1 hy0 hy1 hxw hyh
      refine putPixels_word_of_mem _ ⟨⟨x, y, c⟩, mem_rectPixels.mpr ⟨⟨hx0, hx1⟩, ⟨hy0, hy1⟩, rfl⟩, ?_, rfl⟩
        fun q hq _ _ => (mem_rectPixels.mp hq).2.2
      exact ⟨Nat.le_of_lt hxw, Nat.le_of_lt hyh⟩
    · intro a ha
      refine putPixels_word_of_ne _ fun q hq haccepts => ?_
      obtain ⟨hx, hy, _⟩ := mem_rectPixels.mp hq
      have hin := hscreen q hq haccepts
      exact ha q.x q.y hx.1 hx.2 hy.1 hy.2 hin.1 hin.2

/-- A screen of 2 by 2 pixels. -/
def tinyScreen : Bochs := ⟨⟨fun _ => 0, []⟩, 2, 2, 0, 0xFFFFFFFF, 0, 0xFFFFFFFF, 0, 0, by decide, by decide⟩

/-- A rectangle over the right edge of the screen changes the first pixel of the next row, and one over
the lower edge the other page. -/
theorem bochs_vbe_rect_stray :
    (bochsVbeRect tinyScreen 1 0 3 1 7).fb.word 2 = 7 ∧ (bochsVbeRect tinyScreen 0 1 1 3 7).fb.word 4 = 7
    ∧ ¬ FillsExactly tinyScreen 1 0 3 1 := by
  have hright : (bochsVbeRect tinyScreen 1 0 3 1 7).fb.word 2 = 7 := by decide
  have hlower : (bochsVbeRect tinyScreen 0 1 1 3 7).fb.word 4 = 7 := by decide
  refine ⟨hright, hlower, fun hfills => ?_⟩
  have hkept := (hfills ⟨fun _ => 0, []⟩ 7).2 2 (by
    intro x y _ _ _ hy hx _
    obtain rfl : y = 0 := Nat.lt_one_iff.mp hy
    have hlt : x < 2 := hx
    show 0 + (0 * 2 + x) ≠ 2
    omega)
  exact absurd (hright.symm.trans hkept) (by decide)

end DiyOS
