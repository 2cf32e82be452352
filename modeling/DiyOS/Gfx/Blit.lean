import DiyOS.Gfx.Bochs

/-!
# Drawing pixel data (`gfx/gfx.c`, `drivers/gfx/bochs.c`)

The generic functions put the pixels of an array one by one; the driver copies whole rows. An array is what
its memory holds from the pointer on, word by word.

* **`gfxDraw_eq`** — the generic functions put the pixels of the array.
* **`bochs_vbe_draw_data_iff`** — when the driver draws what the generic function draws.
-/

namespace DiyOS

open Word

/-! ## `_gfx_draw_data`, `_gfx_draw_data_with_alfa` -/

/-- `data[i]`. -/
def wordAt (data : List Nat) (i : Nat) : Except Halt Nat :=
  match data[i]? with
  | some c => .ok c
  | none => .error .undefined

/-- The loops of `_gfx_draw_data` and `_gfx_draw_data_with_alfa`, which put the words that `draws` picks;
`put` is `gfx_put_pixel`. -/
def gfxDraw {σ : Type} (put : σ → Nat → Nat → Nat → σ) (draws : Nat → Bool) (s : σ) (data : List Nat)
    (width height x y : Nat) : Except Halt σ :=
  (List.range height).foldlM (fun s j =>
    (List.range width).foldlM (fun s i => do
      let c ← wordAt data (u32 (j * width + i))
      pure (if draws c then put s (u32 (x + i)) (u32 (y + j)) c else s)) s) s

/-- `_gfx_draw_data`. -/
def gfxDrawData {σ : Type} (put : σ → Nat → Nat → Nat → σ) (s : σ) (data : List Nat)
    (width height x y : Nat) : Except Halt σ :=
  gfxDraw put (fun _ => true) s data width height x y

/-- `_gfx_draw_data_with_alfa`. -/
def gfxDrawDataWithAlfa {σ : Type} (put : σ → Nat → Nat → Nat → σ) (s : σ) (data : List Nat)
    (width height x y : Nat) : Except Halt σ :=
  gfxDraw put (fun c => c &&& 0xFF000000 ≠ 0) s data width height x y

/-- The pixels of an array that `draws` picks, row by row. -/
def drawPixels (draws : Nat → Bool) (data : List Nat) (width height x y : Nat) : List Pixel :=
  (List.range height).flatMap fun j =>
    ((List.range width).filter fun i => draws (data.getD (j * width + i) 0)).map fun i =>
      ⟨x + i, y + j, data.getD (j * width + i) 0⟩

theorem mem_drawPixels {draws : Nat → Bool} {data : List Nat} {width height x y : Nat} {p : Pixel} :
    p ∈ drawPixels draws data width height x y ↔ ∃ j < height, ∃ i < width,
      draws (data.getD (j * width + i) 0) = true ∧ p = ⟨x + i, y + j, data.getD (j * width + i) 0⟩ := by
  unfold drawPixels
  simp only [List.mem_flatMap, List.mem_map, List.mem_filter, List.mem_range, and_assoc, eq_comm]

/-- A loop whose turns all return. -/
theorem foldlM_ok {α β : Type} {f : β → α → Except Halt β} {g : β → α → β} {l : List α}
    (h : ∀ b, ∀ a ∈ l, f b a = .ok (g b a)) (b : β) : l.foldlM f b = .ok (l.foldl g b) := by
  induction l generalizing b with
  | nil => rfl
  | cons a l ih =>
    rw [List.foldlM_cons, h b a List.mem_cons_self]
    exact ih (fun b a ha => h b a (List.mem_cons_of_mem _ ha)) (g b a)

/-- The words of a row lie in the array. -/
theorem row_lt {width height i j : Nat} (hi : i < width) (hj : j < height) :
    j * width + i < width * height := Raster.index_lt hi hj

/-- **The generic loops** put the pixels of the array, where nothing wraps. -/
theorem gfxDraw_eq (s : Bochs) (draws : Nat → Bool) {data : List Nat} {width height x y : Nat}
    (hlength : width * height ≤ data.length) (hsize : width * height ≤ 4294967296)
    (hx : x + width ≤ 4294967296) (hy : y + height ≤ 4294967296) :
    gfxDraw bochsVbePutpixel32 draws s data width height x y
      = .ok (putPixels s (drawPixels draws data width height x y)) := by
  -- in the picture nothing wraps, and every word is there
  have hturn : ∀ j < height, ∀ s, ∀ i ∈ List.range width, (do
      let c ← wordAt data (u32 (j * width + i))
      pure (if draws c then bochsVbePutpixel32 s (u32 (x + i)) (u32 (y + j)) c else s) : Except Halt Bochs)
      = .ok (if draws (data.getD (j * width + i) 0) then
          bochsVbePutpixel32 s (x + i) (y + j) (data.getD (j * width + i) 0) else s) := by
    intro j hj s i hi
    have hlt := row_lt (List.mem_range.mp hi) hj
    have hiw := List.mem_range.mp hi
    have hread : wordAt data (j * width + i) = .ok (data.getD (j * width + i) 0) := by
      unfold wordAt
      rw [List.getD_eq_getElem?_getD, List.getElem?_eq_getElem (show j * width + i < data.length by omega)]
      rfl
    rw [u32_of_lt (show j * width + i < 4294967296 by omega),
      u32_of_lt (show x + i < 4294967296 by omega), u32_of_lt (show y + j < 4294967296 by omega), hread]
    rfl
  have hrow : ∀ s, ∀ j ∈ List.range height, (List.range width).foldlM (fun s i => do
      let c ← wordAt data (u32 (j * width + i))
      pure (if draws c then bochsVbePutpixel32 s (u32 (x + i)) (u32 (y + j)) c else s)) s
      = (.ok ((List.range width).foldl (fun s i => if draws (data.getD (j * width + i) 0) then
          bochsVbePutpixel32 s (x + i) (y + j) (data.getD (j * width + i) 0) else s) s) : Except Halt Bochs) :=
    fun s j hj => foldlM_ok (hturn j (List.mem_range.mp hj)) s
  unfold gfxDraw
  rw [foldlM_ok hrow s]
  unfold putPixels drawPixels
  simp only [List.foldl_flatMap, List.foldl_map, List.foldl_filter]

/-! ## `bochs_vbe_draw_data` -/

/-- The `n` words from `data[i]` on. -/
def wordsAt (data : List Nat) (i n : Nat) : Except Halt (List Nat) :=
  if n = 0 ∨ i + n ≤ data.length then .ok ((data.drop i).take n) else .error .undefined

/-- The words `cs`, stored from the address `a` on. -/
def Vram.copy (v : Vram) (a : Nat) : List Nat → Vram
  | [] => v
  | c :: cs => (v.store a c).copy (a + 1) cs

/-- The words in a row of `width * 4` bytes. -/
def rowWords (width : Nat) : Nat := u32 (width * 4) / 4

/-- The loop of `bochs_vbe_draw_data`, from the row `_y` of the data on. -/
def drawDataRows (data : List Nat) (width height x : Nat) : Nat → Bochs → Nat → Nat → Except Halt Bochs
  | 0, _, _, _ => .error .loops
  | fuel + 1, s, _y, y =>
    if _y ≤ height then
      match wordsAt data (u32 (_y * width)) (rowWords width) with
      | .error e => .error e
      | .ok row =>
        drawDataRows data width height x fuel
          { s with fb := s.fb.copy (s.page + u32 (y * s.w + x)) row } (u32 (_y + 1)) (u32 (y + 1))
    else .ok s

/-- `bochs_vbe_draw_data`. -/
def bochsVbeDrawData (fuel : Nat) (s : Bochs) (data : List Nat) (width height x y : Nat) :
    Except Halt Bochs := drawDataRows data width height x fuel s 0 y

/-- The driver leaves the frame buffer as the generic function does, and reads no word behind the array. -/
def BlitsLike (fuel : Nat) (s : Bochs) (data : List Nat) (width height x y : Nat) : Prop :=
  ∃ s' s'', bochsVbeDrawData fuel s data width height x y = .ok s'
    ∧ gfxDrawData bochsVbePutpixel32 s data width height x y = .ok s'' ∧ s'.fb.word = s''.fb.word

/-- A loop that ends has read the rows up to the row `height`. -/
theorem drawDataRows_reads {data : List Nat} {width height x : Nat} (hwidth : width < 65536)
    (hheight : height < 65536) {fuel : Nat} {s s' : Bochs} {_y y : Nat} (hy : _y ≤ height)
    (h : drawDataRows data width height x fuel s _y y = .ok s') :
    width = 0 ∨ height * width + width ≤ data.length := by
  induction fuel generalizing s _y y with
  | zero => cases h
  | succ fuel ih =>
    have hwords : rowWords width = width := by
      unfold rowWords
      rw [u32_of_lt (by omega)]
      omega
    have hindex : u32 (_y * width) = _y * width := by
      have hmul : _y * width ≤ 65535 * 65535 := Nat.mul_le_mul (by omega) (by omega)
      exact u32_of_lt (by omega)
    rw [drawDataRows, if_pos hy, hwords, hindex] at h
    unfold wordsAt at h
    by_cases hread : width = 0 ∨ _y * width + width ≤ data.length
    · rw [if_pos hread] at h
      by_cases hlast : _y = height
      · rw [← hlast]
        exact hread
      · rw [u32_of_lt (show _y + 1 < 4294967296 by omega)] at h
        exact ih (by omega) h
    · rw [if_neg hread] at h
      cases h

/-- Rows without words draw nothing. -/
theorem drawDataRows_empty {height : Nat} (hheight : height < 65536) (data : List Nat) (x : Nat)
    {fuel : Nat} (s : Bochs) (_y y : Nat) (hy : _y ≤ height + 1) (hfuel : height + 1 < fuel + _y) :
    drawDataRows data 0 height x fuel s _y y = .ok s := by
  induction fuel generalizing _y y with
  | zero => omega
  | succ fuel ih =>
    rw [drawDataRows]
    by_cases hturn : _y ≤ height
    · rw [if_pos hturn, u32_of_lt (show _y + 1 < 4294967296 by omega)]
      exact ih (_y + 1) (u32 (y + 1)) (by omega) (by omega)
    · rw [if_neg hturn]

/-- **Blitting.** For an array of `width * height` words and a position on the screen, the driver draws what
the generic function draws exactly if the image is empty of columns; the loop runs to the row `height`. -/
theorem bochs_vbe_draw_data_iff (s : Bochs) {data : List Nat} {width height x y fuel : Nat}
    (hlength : data.length = width * height) (hx : x + width ≤ s.w) (hy : y + height ≤ s.h)
    (hfuel : height + 1 < fuel) : BlitsLike fuel s data width height x y ↔ width = 0 := by
  have hw := s.hw
  have hh := s.hh
  constructor
  · rintro ⟨s', _, hcall, _⟩
    rcases drawDataRows_reads (by omega) (by omega) (Nat.zero_le height) hcall with hzero | hread
    · exact hzero
    · rw [hlength, Nat.mul_comm] at hread
      omega
  · rintro rfl
    refine ⟨s, s, drawDataRows_empty (by omega) data x s 0 y (Nat.zero_le _) hfuel, ?_, rfl⟩
    have hnone : drawPixels (fun _ => true) data 0 height x y = [] := by
      refine List.eq_nil_iff_forall_not_mem.mpr fun p hp => ?_
      obtain ⟨_, _, i, hi, _⟩ := mem_drawPixels.mp hp
      exact Nat.not_lt_zero i hi
    unfold gfxDrawData
    rw [@gfxDraw_eq s (fun _ => true) data 0 height x y (by omega) (by omega) (by omega) (by omega), hnone]
    rfl

/-- A single pixel: the word behind it is read, and is drawn below it where there is one. -/
theorem bochs_vbe_draw_data_pixel :
    ((bochsVbeDrawData 3 tinyScreen [5, 6] 1 1 0 0).toOption.map fun s => (s.fb.word 0, s.fb.word 2))
        = some (5, 6)
    ∧ ¬ BlitsLike 3 tinyScreen [5] 1 1 0 0 := by
  refine ⟨by decide, ?_⟩
  rintro ⟨s', _, hcall, _⟩
  have hread : (bochsVbeDrawData 3 tinyScreen [5] 1 1 0 0).toOption.isNone = true := by decide
  rw [hcall] at hread
  cases hread

/-- An image without columns. -/
theorem bochs_vbe_draw_data_empty : BlitsLike 3 tinyScreen [] 0 1 0 0 :=
  (@bochs_vbe_draw_data_iff tinyScreen [] 0 1 0 0 3 (by decide) (by decide) (by decide) (by decide)).mpr rfl

end DiyOS
