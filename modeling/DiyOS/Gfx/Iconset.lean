import DiyOS.Gfx.Blit

/-!
# Icons (`gui/util/iconset.c`)

The icons of a set stand in one image, in cells of `iw` by `ih` pixels. `iconset_draw` draws a cell row by
row, through `_gfx_draw_data_with_alfa` and `bochs_vbe_putpixel_32`.

* **`iconsetRow_eq`** — a row of a cell puts the pixels of the cell that are not transparent.
* **`iconset_draw_cell`** — what `iconset_draw` draws.
-/

namespace DiyOS

open Word

/-- `bmp_image_t`, the fields that `iconset_draw` reads; `width` and `height` are positive, so it does not
matter that they are signed. `data` is the array of pixels, one word for each. -/
structure BmpImage where
  width : Nat
  height : Nat
  data : List Nat

/-- The call for the row `_y` of the icon. -/
def iconsetRow (image : BmpImage) (iw ih row col x y : Nat) (s : Bochs) (_y : Nat) : Except Halt Bochs :=
  gfxDrawDataWithAlfa bochsVbePutpixel32 s
    (image.data.drop (u32 (u32 (_y + row * ih) * image.width + col * iw))) iw 1 x (u32 (y + _y))

/-- `iconset_draw`. -/
def iconsetDraw (image : BmpImage) (iw ih : Nat) (s : Bochs) (row col x y : Nat) : Except Halt Bochs :=
  if u32 (u32 (col + 1) * iw) > image.width ∨ u32 (u32 (row + 1) * ih) > image.height then .ok s
  else (List.range ih).foldlM (iconsetRow image iw ih row col x y) s

/-- The pixel `(i, j)` of the cell. -/
def BmpImage.cell (image : BmpImage) (iw ih row col i j : Nat) : Nat :=
  image.data.getD (Raster.index image.width (col * iw + i) (row * ih + j)) 0

/-- The pixels of the cell that are not transparent, as they are put. -/
def cellPixels (image : BmpImage) (iw ih row col x y : Nat) : List Pixel :=
  (List.range ih).flatMap fun j =>
    ((List.range iw).filter fun i => image.cell iw ih row col i j &&& 0xFF000000 ≠ 0).map fun i =>
      ⟨x + i, y + j, image.cell iw ih row col i j⟩

theorem mem_cellPixels {image : BmpImage} {iw ih row col x y : Nat} {p : Pixel} :
    p ∈ cellPixels image iw ih row col x y ↔ ∃ j < ih, ∃ i < iw,
      image.cell iw ih row col i j &&& 0xFF000000 ≠ 0
      ∧ p = ⟨x + i, y + j, image.cell iw ih row col i j⟩ := by
  unfold cellPixels
  simp only [List.mem_flatMap, List.mem_map, List.mem_filter, List.mem_range, decide_eq_true_eq, and_assoc]
  simp only [@eq_comm Pixel p]

section

variable {image : BmpImage} {iw ih row col x y : Nat}

/-- **A row of the icon**: it lies in the image, and nothing wraps. -/
theorem iconsetRow_eq (hlength : image.data.length = image.width * image.height)
    (hsize : image.width * image.height * 4 < 4294967296) (hcol : (col + 1) * iw ≤ image.width)
    (hrow : (row + 1) * ih ≤ image.height) (hx : x + iw ≤ 4294967296) (hy : y + ih ≤ 4294967296)
    (s : Bochs) {j : Nat} (hj : j < ih) :
    iconsetRow image iw ih row col x y s j
      = .ok (putPixels s (((List.range iw).filter fun i =>
          image.cell iw ih row col i j &&& 0xFF000000 ≠ 0).map fun i =>
            ⟨x + i, y + j, image.cell iw ih row col i j⟩)) := by
  have hin : (row * ih + j + 1) * image.width ≤ image.height * image.width :=
    Nat.mul_le_mul_right _ (by rw [Nat.add_mul] at hrow; omega)
  rw [Nat.add_mul, Nat.one_mul, Nat.mul_comm image.height] at hin
  rw [Nat.add_mul, Nat.one_mul] at hcol hrow
  -- the cell lies in the image, so that its index does not wrap
  have hindex : u32 (u32 (j + row * ih) * image.width + col * iw)
      = Raster.index image.width (col * iw) (row * ih + j) := by
    rw [u32_u32_mul_add, Nat.add_comm j]
    unfold Raster.index
    exact u32_of_lt (by omega)
  have hcell : ∀ i, (image.data.drop (Raster.index image.width (col * iw) (row * ih + j))).getD (0 * iw + i) 0
      = image.cell iw ih row col i j := by
    intro i
    unfold BmpImage.cell Raster.index
    rw [List.getD_eq_getElem?_getD, List.getD_eq_getElem?_getD, List.getElem?_drop, Nat.zero_mul,
      Nat.zero_add, Nat.add_assoc]
  have hroom : iw * 1 ≤ (image.data.drop (Raster.index image.width (col * iw) (row * ih + j))).length := by
    rw [List.length_drop, hlength]
    unfold Raster.index
    omega
  unfold iconsetRow gfxDrawDataWithAlfa
  rw [hindex, u32_of_lt (show y + j < 4294967296 by omega),
    gfxDraw_eq s _ hroom (by omega) hx (by omega)]
  unfold drawPixels
  simp only [hcell, List.range_one, List.flatMap_singleton, Nat.add_zero]

/-- **The icon** puts the pixels of the cell. -/
theorem iconsetDraw_eq (hlength : image.data.length = image.width * image.height)
    (hsize : image.width * image.height * 4 < 4294967296) (hcol : (col + 1) * iw ≤ image.width)
    (hrow : (row + 1) * ih ≤ image.height) (hx : x + iw ≤ 4294967296) (hy : y + ih ≤ 4294967296)
    (s : Bochs) :
    (List.range ih).foldlM (iconsetRow image iw ih row col x y) s
      = .ok (putPixels s (cellPixels image iw ih row col x y)) := by
  rw [foldlM_ok (fun s j hj => iconsetRow_eq hlength hsize hcol hrow hx hy s (List.mem_range.mp hj)) s]
  unfold cellPixels putPixels
  rw [List.foldl_flatMap]

end

/-- Two pixels of an icon at one word are the same pixel. -/
theorem iconPixel_inj {w iw x y i j i' j' : Nat} (hx : x + iw ≤ w) (hi : i < iw) (hi' : i' < iw)
    (h : Raster.index w (x + i) (y + j) = Raster.index w (x + i') (y + j')) : i = i' ∧ j = j' := by
  have hinj := Raster.index_inj (show x + i < w by omega) (show x + i' < w by omega) h
  omega

/-- A word of the screen, where the pixels of a cell are put. -/
theorem cellPixels_word (image : BmpImage) {iw ih x y : Nat} (row col : Nat) (s : Bochs) (hx : x + iw ≤ s.w)
    (hy : y + ih ≤ s.h) {i j : Nat} (hi : i < iw) (hj : j < ih) :
    (putPixels s (cellPixels image iw ih row col x y)).fb.word (s.page + Raster.index s.w (x + i) (y + j))
      = if image.cell iw ih row col i j &&& 0xFF000000 ≠ 0 then image.cell iw ih row col i j
        else s.fb.word (s.page + Raster.index s.w (x + i) (y + j)) := by
  by_cases halpha : image.cell iw ih row col i j &&& 0xFF000000 ≠ 0
  · rw [if_pos halpha]
    refine putPixels_word_of_mem s ⟨_, mem_cellPixels.mpr ⟨j, hj, i, hi, halpha, rfl⟩, ?_, rfl⟩ ?_
    · unfold Bochs.Accepts
      simp only
      omega
    · intro p hp _ haddress
      obtain ⟨j', _, i', hi', _, rfl⟩ := mem_cellPixels.mp hp
      obtain ⟨rfl, rfl⟩ := iconPixel_inj hx hi' hi (Nat.add_left_cancel haddress)
      rfl
  · rw [if_neg halpha]
    refine putPixels_word_of_ne s fun p hp _ haddress => halpha ?_
    obtain ⟨j', _, i', hi', halpha', rfl⟩ := mem_cellPixels.mp hp
    obtain ⟨rfl, rfl⟩ := iconPixel_inj hx hi' hi (Nat.add_left_cancel haddress)
    exact halpha'

/-- The edge of a cell does not wrap. -/
theorem u32_edge {n size : Nat} (hsize : 0 < size) (h : (n + 1) * size < 4294967296) :
    u32 (u32 (n + 1) * size) = (n + 1) * size := by
  have hle : n + 1 ≤ (n + 1) * size := Nat.le_mul_of_pos_right _ hsize
  rw [u32_of_lt (show n + 1 < 4294967296 by omega), u32_of_lt h]

/-- **Icon extraction.** For an image of `width * height` pixels, `iconset_draw` draws nothing if the cell
`(row, col)` is not wholly inside the image. Otherwise it reads pixels of the image only, and sets the
pixel `(x + i, y + j)` of the screen to the pixel `(col * iw + i, row * ih + j)` of the image exactly where
that is not transparent; no other word of the frame buffer changes. -/
theorem iconset_draw_cell (image : BmpImage) {iw ih row col x y : Nat} (s : Bochs)
    (hlength : image.data.length = image.width * image.height)
    (hsize : image.width * image.height * 4 < 4294967296) (hiw : 0 < iw) (hih : 0 < ih)
    (hcol : (col + 1) * iw < 4294967296) (hrow : (row + 1) * ih < 4294967296) (hx : x + iw ≤ s.w)
    (hy : y + ih ≤ s.h) :
    (¬ ((col + 1) * iw ≤ image.width ∧ (row + 1) * ih ≤ image.height) →
      iconsetDraw image iw ih s row col x y = .ok s)
    ∧ ((col + 1) * iw ≤ image.width ∧ (row + 1) * ih ≤ image.height →
      ∃ s', iconsetDraw image iw ih s row col x y = .ok s'
        ∧ (∀ i < iw, ∀ j < ih, s'.fb.word (s.page + Raster.index s.w (x + i) (y + j))
          = if image.cell iw ih row col i j &&& 0xFF000000 ≠ 0 then image.cell iw ih row col i j
            else s.fb.word (s.page + Raster.index s.w (x + i) (y + j)))
        ∧ ∀ a, (∀ i < iw, ∀ j < ih, s.page + Raster.index s.w (x + i) (y + j) ≠ a) →
          s'.fb.word a = s.fb.word a) := by
  have hw := s.hw
  have hh := s.hh
  unfold iconsetDraw
  rw [u32_edge hiw hcol, u32_edge hih hrow]
  constructor
  · intro hout
    rw [if_pos (by omega)]
  · intro hin
    rw [if_neg (by omega), iconsetDraw_eq hlength hsize hin.1 hin.2 (by omega) (by omega)]
    refine ⟨_, rfl, fun i hi j hj => cellPixels_word image row col s hx hy hi hj, fun a ha => ?_⟩
    refine putPixels_word_of_ne s fun p hp _ => ?_
    obtain ⟨j, hj, i, hi, _, rfl⟩ := mem_cellPixels.mp hp
    exact ha i hi j hj

/-- A white screen of 3 by 3 pixels. -/
def whiteScreen : Bochs :=
  { tinyScreen with fb := ⟨fun _ => 0xFFFFFFFF, []⟩, w := 3, h := 3, hw := by decide, hh := by decide }

/-- An image of 4 by 4 pixels, as two rows of two cells. -/
def fourIcons : BmpImage :=
  ⟨4, 4, [1, 2, 3, 4, 5, 6, 7, 8, 9, 10, 0xFF0000AA, 0x000000BB, 13, 14, 0x000000CC, 0xFF0000DD]⟩

/-- The lower right cell, drawn into the lower right of the white screen: its two opaque pixels are put, the
screen stays white under the two transparent ones, and the pixel to the left of the cell is kept. -/
theorem iconset_draw_cell_pair :
    ∃ s', iconsetDraw fourIcons 2 2 whiteScreen 1 1 1 1 = .ok s'
      ∧ s'.fb.word 4 = 0xFF0000AA ∧ s'.fb.word 5 = 0xFFFFFFFF ∧ s'.fb.word 7 = 0xFFFFFFFF
      ∧ s'.fb.word 8 = 0xFF0000DD ∧ s'.fb.word 3 = 0xFFFFFFFF := by
  obtain ⟨s', hcall, hdrawn, hkept⟩ := (@iconset_draw_cell fourIcons 2 2 1 1 1 1 whiteScreen
    (by decide) (by decide) (by decide) (by decide) (by decide) (by decide) (by decide) (by decide)).2
    (by decide)
  refine ⟨s', hcall, ?_, ?_, ?_, ?_, hkept 3 (by decide)⟩
  · exact (hdrawn 0 (by decide) 0 (by decide)).trans (by decide)
  · exact (hdrawn 1 (by decide) 0 (by decide)).trans (by decide)
  · exact (hdrawn 0 (by decide) 1 (by decide)).trans (by decide)
  · exact (hdrawn 1 (by decide) 1 (by decide)).trans (by decide)

end DiyOS
