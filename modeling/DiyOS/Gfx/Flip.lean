import DiyOS.Gfx.Blit

/-!
# Flipping the pages (`drivers/gfx/bochs.c`)

`bochs_vbe_flip` flips if the dirty area reaches beyond the column 0. Only `bochs_vbe_putpixel_32` makes the
area grow.

* **`runCalls_stored`** — where a sequence of drawing calls stores words.
* **`runCalls_updateX1`** — when it makes the area grow.
* **`bochs_vbe_flip_iff`** — for which sequences the flip shows what was drawn.
-/

namespace DiyOS

open Word

/-- `bochs_vbe_putchar`; `font` is `font8x8_basic`, and the font size is the one that `gfx_bochs` sets. -/
def bochsVbePutchar (font : Nat → Nat → Nat) (s : Bochs) (x y fgcolor bgcolor c : Nat) : Bochs :=
  (List.range 8).foldl (fun s i => (List.range 8).foldl (fun s j =>
    bochsVbePutpixel32 s (u32 (x + i)) (u32 (y + j))
      (if (font (c &&& 0x7F) j >>> i) &&& 1 ≠ 0 then fgcolor else bgcolor)) s) s

/-! ## Drawing calls

What the functions of `gfx.c` store. Those that go through `putpixel` enlarge the area that has to be plotted;
those that copy rows do not. -/

inductive GfxCall where
  | putPixel (x y c : Nat)
  | rect (x0 y0 x1 y1 c : Nat)
  | putchar (x y fgcolor bgcolor c : Nat)
  | drawData (data : List Nat) (width height x y : Nat)

def GfxCall.run (font : Nat → Nat → Nat) (fuel : Nat) (s : Bochs) : GfxCall → Except Halt Bochs
  | .putPixel x y c => .ok (bochsVbePutpixel32 s x y c)
  | .rect x0 y0 x1 y1 c => .ok (bochsVbeRect s x0 y0 x1 y1 c)
  | .putchar x y fgcolor bgcolor c => .ok (bochsVbePutchar font s x y fgcolor bgcolor c)
  | .drawData data width height x y => bochsVbeDrawData fuel s data width height x y

def runCalls (font : Nat → Nat → Nat) (fuel : Nat) (s : Bochs) (calls : List GfxCall) : Except Halt Bochs :=
  calls.foldlM (GfxCall.run font fuel) s

/-- The call passes the position to `bochs_vbe_putpixel_32`. -/
def GfxCall.Puts : GfxCall → Nat → Nat → Prop
  | .putPixel x y _, x', y' => x' = x ∧ y' = y
  | .rect x0 y0 x1 y1 _, x', y' => (min x0 x1 ≤ x' ∧ x' < max x0 x1) ∧ min y0 y1 ≤ y' ∧ y' < max y0 y1
  | .putchar x y _ _ _, x', y' => ∃ i < 8, ∃ j < 8, x' = u32 (x + i) ∧ y' = u32 (y + j)
  | .drawData _ _ _ _ _, _, _ => False

/-- The call copies a word to the place `k` of the page; `w` is the width of the screen. -/
def GfxCall.Copies (w : Nat) : GfxCall → Nat → Prop
  | .drawData _ width height x y, k =>
    ∃ j ≤ height, ∃ i < rowWords width, k = u32 (u32 (y + j) * w + x) + i
  | .putPixel _ _ _, _ => False
  | .rect _ _ _ _ _, _ => False
  | .putchar _ _ _ _ _, _ => False

/-! ## What pixels store

`Draws` says where the frame buffer was stored to, and which columns the area has to hold; it is composed along
the drawing. -/

section

variable {s s' : Bochs}

/-- `s'` comes from `s` by stores at the places `stores` of the page, and pixels at the columns
`columns`. -/
structure Draws (s s' : Bochs) (stores columns : Nat → Prop) : Prop where
  mode : SameMode s s'
  stored : ∀ a, a ∈ s'.fb.stored ↔ a ∈ s.fb.stored ∨ ∃ k, stores k ∧ a = s.page + k
  updateX1 : 0 < s'.updateX1 ↔ 0 < s.updateX1 ∨ ∃ x, columns x ∧ 0 < x

theorem SameMode.refl (s : Bochs) : SameMode s s := ⟨rfl, rfl, rfl, rfl⟩

theorem SameMode.trans {s'' : Bochs} (h : SameMode s s') (h' : SameMode s' s'') : SameMode s s'' :=
  ⟨h'.w.trans h.w, h'.h.trans h.h, h'.current.trans h.current, h'.yOffset.trans h.yOffset⟩

theorem Draws.refl (s : Bochs) : Draws s s (fun _ => False) fun _ => False := by
  refine ⟨.refl s, fun a => ?_, ?_⟩
  · simp
  · simp

theorem Draws.trans {s'' : Bochs} {stores stores' columns columns' : Nat → Prop}
    (h : Draws s s' stores columns) (h' : Draws s' s'' stores' columns') :
    Draws s s'' (fun k => stores k ∨ stores' k) fun x => columns x ∨ columns' x := by
  refine ⟨h.mode.trans h'.mode, fun a => ?_, ?_⟩
  · rw [h'.stored, h.stored, h.mode.page, or_assoc]
    simp only [or_and_right, exists_or]
  · rw [h'.updateX1, h.updateX1, or_assoc]
    simp only [or_and_right, exists_or]

theorem Draws.congr {stores stores' columns columns' : Nat → Prop} (h : Draws s s' stores columns)
    (hstores : ∀ k, stores k ↔ stores' k) (hcolumns : ∀ x, columns x ↔ columns' x) :
    Draws s s' stores' columns' := by
  refine ⟨h.mode, fun a => ?_, ?_⟩
  · rw [h.stored]
    simp only [hstores]
  · rw [h.updateX1]
    simp only [hcolumns]

/-- Pixels are stored where the driver accepts them. -/
theorem draws_putPixels (s : Bochs) (ps : List Pixel) :
    Draws s (putPixels s ps) (fun k => ∃ p ∈ ps, s.Accepts p ∧ k = Raster.index s.w p.x p.y)
      fun x => ∃ p ∈ ps, s.Accepts p ∧ x = p.x := by
  induction ps generalizing s with
  | nil => exact (Draws.refl s).congr (by simp) (by simp)
  | cons p ps ih =>
    have hmode := putpixel_mode s p
    have hrest := ih (bochsVbePutpixel32 s p.x p.y p.c)
    simp only [hmode.accepts, hmode.w] at hrest
    rw [putPixels_cons]
    -- a pixel that is accepted enlarges the area by its column
    by_cases h : s.Accepts p
    · have hfirst : Draws s (bochsVbePutpixel32 s p.x p.y p.c) (fun k => k = Raster.index s.w p.x p.y)
          fun x => x = p.x := by
        refine ⟨hmode, fun a => ?_, ?_⟩
        · rw [putpixel_of_accepts h, exists_eq_left, or_comm]
          exact List.mem_cons
        · rw [putpixel_of_accepts h, exists_eq_left]
          show 0 < (if p.x > s.updateX1 then p.x else s.updateX1) ↔ _
          split <;> omega
      refine (hfirst.trans hrest).congr ?_ ?_
      · simp [h]
      · simp [h]
    · rw [putpixel_of_not_accepts h] at hrest ⊢
      refine hrest.congr ?_ ?_
      · simp [h]
      · simp [h]

/-- Pixels at the positions `puts`. -/
theorem draws_positions (s : Bochs) {ps : List Pixel} {puts : Nat → Nat → Prop}
    (h : ∀ x y, (∃ p ∈ ps, p.x = x ∧ p.y = y) ↔ puts x y) :
    Draws s (putPixels s ps) (fun k => ∃ x y, puts x y ∧ (x ≤ s.w ∧ y ≤ s.h) ∧ k = Raster.index s.w x y)
      fun x => ∃ y, puts x y ∧ x ≤ s.w ∧ y ≤ s.h := by
  refine (draws_putPixels s ps).congr (fun k => ⟨?_, ?_⟩) fun x => ⟨?_, ?_⟩
  · rintro ⟨p, hp, haccepts, hk⟩
    exact ⟨p.x, p.y, (h _ _).mp ⟨p, hp, rfl, rfl⟩, haccepts, hk⟩
  · rintro ⟨x, y, hputs, haccepts, hk⟩
    obtain ⟨p, hp, rfl, rfl⟩ := (h x y).mpr hputs
    exact ⟨p, hp, haccepts, hk⟩
  · rintro ⟨p, hp, haccepts, rfl⟩
    exact ⟨p.y, (h _ _).mp ⟨p, hp, rfl, rfl⟩, haccepts⟩
  · rintro ⟨y, hputs, haccepts⟩
    obtain ⟨p, hp, rfl, rfl⟩ := (h x y).mpr hputs
    exact ⟨p, hp, haccepts, rfl⟩

/-! ## What copied rows store

Rows are copied from the drawing into the frame buffer by address. The area is left as it was. -/

/-- A row is stored word by word. -/
theorem copy_stored (v : Vram) (b : Nat) (row : List Nat) (a : Nat) :
    a ∈ (v.copy b row).stored ↔ a ∈ v.stored ∨ ∃ i < row.length, a = b + i := by
  induction row generalizing v b with
  | nil => simp [Vram.copy]
  | cons c row ih =>
    rw [Vram.copy, ih]
    show a ∈ b :: v.stored ∨ _ ↔ _
    rw [List.mem_cons, List.length_cons]
    constructor
    · rintro ((rfl | hold) | ⟨i, hi, rfl⟩)
      · exact Or.inr ⟨0, Nat.succ_pos _, rfl⟩
      · exact Or.inl hold
      · exact Or.inr ⟨i + 1, Nat.succ_lt_succ hi, by omega⟩
    · rintro (hold | ⟨i, hi, rfl⟩)
      · exact Or.inl (Or.inr hold)
      · cases i with
        | zero => exact Or.inl (Or.inl rfl)
        | succ i => exact Or.inr ⟨i, Nat.lt_of_succ_lt_succ hi, by omega⟩

theorem length_of_wordsAt {data row : List Nat} {i n : Nat} (h : wordsAt data i n = .ok row) :
    row.length = n := by
  unfold wordsAt at h
  by_cases hread : n = 0 ∨ i + n ≤ data.length
  · rw [if_pos hread] at h
    rw [← Except.ok.inj h, List.length_take, List.length_drop]
    omega
  · rw [if_neg hread] at h
    cases h

/-- The largest height makes the loop run for ever. -/
theorem drawDataRows_loops {data : List Nat} {width height x : Nat} (hheight : 4294967295 ≤ height)
    {fuel : Nat} {s s' : Bochs} {_y y : Nat} (hy : _y < 4294967296) :
    drawDataRows data width height x fuel s _y y ≠ .ok s' := by
  induction fuel generalizing s _y y with
  | zero =>
    intro h
    cases h
  | succ fuel ih =>
    rw [drawDataRows, if_pos (by omega)]
    cases wordsAt data (u32 (_y * width)) (rowWords width) with
    | error e =>
      intro h
      cases h
    | ok row => exact ih (u32_lt _)

/-- A row of words that is copied to the place `k` of the page. -/
theorem copy_draws (s : Bochs) (k : Nat) (row : List Nat) :
    Draws s { s with fb := s.fb.copy (s.page + k) row } (fun k' => ∃ i < row.length, k' = k + i)
      fun _ => False := by
  refine ⟨⟨rfl, rfl, rfl, rfl⟩, fun a => ?_, by simp⟩
  rw [copy_stored]
  refine or_congr_right ⟨?_, ?_⟩
  · rintro ⟨i, hi, rfl⟩
    exact ⟨_, ⟨i, hi, rfl⟩, Nat.add_assoc _ _ _⟩
  · rintro ⟨_, ⟨i, hi, rfl⟩, rfl⟩
    exact ⟨i, hi, (Nat.add_assoc _ _ _).symm⟩

/-- The rows from `_y` to `height` are copied. -/
theorem drawDataRows_draws {data : List Nat} {width height x : Nat} (hheight : height < 4294967295)
    {fuel : Nat} {s s' : Bochs} {_y y : Nat}
    (h : drawDataRows data width height x fuel s _y y = .ok s') :
    Draws s s' (fun k => ∃ j, (_y ≤ j ∧ j ≤ height)
      ∧ ∃ i < rowWords width, k = u32 (u32 (y + (j - _y)) * s.w + x) + i) fun _ => False := by
  induction fuel generalizing s _y y with
  | zero => cases h
  | succ fuel ih =>
    rw [drawDataRows] at h
    by_cases hturn : _y ≤ height
    · rw [if_pos hturn] at h
      cases hrow : wordsAt data (u32 (_y * width)) (rowWords width) with
      | error e =>
        rw [hrow] at h
        cases h
      | ok row =>
        rw [hrow] at h
        simp only at h
        rw [u32_of_lt (show _y + 1 < 4294967296 by omega)] at h
        have hfirst := copy_draws s (u32 (y * s.w + x)) row
        rw [length_of_wordsAt hrow] at hfirst
        -- this row is the one for `_y`
        have hthis : u32 (y * s.w + x) = u32 (u32 (y + (_y - _y)) * s.w + x) := by
          rw [Nat.sub_self, Nat.add_zero, u32_u32_mul_add]
        have hlater : ∀ j, _y + 1 ≤ j → u32 (u32 (y + 1) + (j - (_y + 1))) = u32 (y + (j - _y)) := by
          intro j hj
          rw [u32_u32_add, show y + 1 + (j - (_y + 1)) = y + (j - _y) by omega]
        refine (hfirst.trans (ih h)).congr (fun k => ⟨?_, ?_⟩) (by simp)
        · rintro (⟨i, hi, rfl⟩ | ⟨j, hj, i, hi, rfl⟩)
          · exact ⟨_y, ⟨Nat.le_refl _, hturn⟩, i, hi, by rw [← hthis]⟩
          · exact ⟨j, ⟨by omega, hj.2⟩, i, hi, by rw [← hlater j hj.1]⟩
        · rintro ⟨j, hj, i, hi, rfl⟩
          by_cases hlast : j = _y
          · left
            exact ⟨i, hi, by rw [hlast, ← hthis]⟩
          · right
            exact ⟨j, ⟨by omega, hj.2⟩, i, hi, by rw [← hlater j (by omega)]⟩
    · rw [if_neg hturn] at h
      rw [← Except.ok.inj h]
      refine (Draws.refl s).congr (fun k => ⟨False.elim, ?_⟩) (by simp)
      rintro ⟨j, hj, _⟩
      omega

/-! ## Sequences of calls

The stores of a sequence are those of its calls. -/

/-- The places that a drawing call stores words at. -/
def GfxCall.Stores (w h : Nat) (call : GfxCall) (k : Nat) : Prop :=
  (∃ x y, call.Puts x y ∧ (x ≤ w ∧ y ≤ h) ∧ k = Raster.index w x y) ∨ call.Copies w k

/-- The columns of the pixels that a drawing call puts. -/
def GfxCall.Columns (w h : Nat) (call : GfxCall) (x : Nat) : Prop := ∃ y, call.Puts x y ∧ x ≤ w ∧ y ≤ h

theorem putchar_draws (font : Nat → Nat → Nat) (s : Bochs) (x y fgcolor bgcolor c : Nat) :
    ∃ ps, bochsVbePutchar font s x y fgcolor bgcolor c = putPixels s ps
      ∧ ∀ x' y', (∃ p ∈ ps, p.x = x' ∧ p.y = y') ↔ GfxCall.Puts (.putchar x y fgcolor bgcolor c) x' y' := by
  refine ⟨(List.range 8).flatMap fun i => (List.range 8).map fun j => ⟨u32 (x + i), u32 (y + j),
    if (font (c &&& 0x7F) j >>> i) &&& 1 ≠ 0 then fgcolor else bgcolor⟩, ?_, fun x' y' => ?_⟩
  · unfold bochsVbePutchar putPixels
    simp only [List.foldl_flatMap, List.foldl_map]
  · simp only [List.mem_flatMap, List.mem_map, List.mem_range, GfxCall.Puts]
    constructor
    · rintro ⟨_, ⟨i, hi, j, hj, rfl⟩, rfl, rfl⟩
      exact ⟨i, hi, j, hj, rfl, rfl⟩
    · rintro ⟨i, hi, j, hj, rfl, rfl⟩
      exact ⟨_, ⟨i, hi, j, hj, rfl⟩, rfl, rfl⟩

/-- **A drawing call.** -/
theorem GfxCall.run_draws {font : Nat → Nat → Nat} {fuel : Nat} {call : GfxCall}
    (h : call.run font fuel s = .ok s') :
    Draws s s' (call.Stores s.w s.h) (call.Columns s.w s.h) := by
  cases call with
  | putPixel x y c =>
    rw [← Except.ok.inj h]
    exact (@draws_positions s [⟨x, y, c⟩] (GfxCall.Puts (.putPixel x y c))
      (by simp [GfxCall.Puts, eq_comm])).congr (fun k => (iff_of_eq (or_false _)).symm) fun _ => Iff.rfl
  | rect x0 y0 x1 y1 c =>
    rw [← Except.ok.inj h, bochsVbeRect_eq]
    refine (@draws_positions s (rectPixels (min x0 x1) (min y0 y1) (max x0 x1) (max y0 y1) c)
      (GfxCall.Puts (.rect x0 y0 x1 y1 c)) fun x y => ⟨?_, ?_⟩).congr
        (fun k => (iff_of_eq (or_false _)).symm) fun _ => Iff.rfl
    · rintro ⟨p, hp, rfl, rfl⟩
      have hin := mem_rectPixels.mp hp
      exact ⟨hin.1, hin.2.1⟩
    · intro hputs
      exact ⟨⟨x, y, c⟩, mem_rectPixels.mpr ⟨hputs.1, hputs.2, rfl⟩, rfl, rfl⟩
  | putchar x y fgcolor bgcolor c =>
    obtain ⟨ps, hps, hputs⟩ := putchar_draws font s x y fgcolor bgcolor c
    rw [← Except.ok.inj h, hps]
    exact (draws_positions s hputs).congr (fun k => (iff_of_eq (or_false _)).symm) fun _ => Iff.rfl
  -- the loop runs for `height + 1` rows, and for the greatest height for ever
  | drawData data width height x y =>
    have hheight : height < 4294967295 := by
      by_contra hge
      exact drawDataRows_loops (Nat.le_of_not_lt hge) (by decide) h
    refine (drawDataRows_draws hheight h).congr (fun k => ⟨?_, ?_⟩) fun x => ⟨False.elim, ?_⟩
    · rintro ⟨j, hj, hrow⟩
      exact Or.inr ⟨j, hj.2, hrow⟩
    · rintro (⟨_, _, hfalse, _⟩ | ⟨j, hj, hrow⟩)
      · exact hfalse.elim
      · exact ⟨j, ⟨Nat.zero_le j, hj⟩, hrow⟩
    · rintro ⟨_, hfalse, _⟩
      exact hfalse

/-- **A sequence of drawing calls.** -/
theorem runCalls_draws {font : Nat → Nat → Nat} {fuel : Nat} {calls : List GfxCall}
    (h : runCalls font fuel s calls = .ok s') :
    Draws s s' (fun k => ∃ call ∈ calls, call.Stores s.w s.h k)
      fun x => ∃ call ∈ calls, call.Columns s.w s.h x := by
  induction calls generalizing s with
  | nil =>
    rw [← Except.ok.inj h]
    exact (Draws.refl s).congr (by simp) (by simp)
  | cons call calls ih =>
    unfold runCalls at h
    rw [List.foldlM_cons] at h
    obtain ⟨s₁, hcall, hrest⟩ := bind_eq_ok.mp h
    have hfirst := GfxCall.run_draws hcall
    have hlater := ih hrest
    rw [hfirst.mode.w, hfirst.mode.h] at hlater
    exact (hfirst.trans hlater).congr (by simp) (by simp)

end

/-! ## The flip

`gfx_flip` shows the page if the right side of the area is behind column 0. Where only column 0 was drawn, or
rows were copied only, it does not. -/

/-- The state after a flip, or at the start: the dirty area is empty; `stored` begins anew. -/
structure AfterFlip (s : Bochs) : Prop where
  x0 : s.updateX0 = 0xFFFFFFFF
  x1 : s.updateX1 = 0
  y0 : s.updateY0 = 0xFFFFFFFF
  y1 : s.updateY1 = 0
  stored : s.fb.stored = []

/-- A pixel of the page that is drawn into has been written. -/
def Bochs.Drawn (s : Bochs) : Prop := ∃ k < s.w * s.h, s.page + k ∈ s.fb.stored

/-- If something was drawn, the next flip displays the page that was drawn into, changes to the other page
and empties the dirty area; otherwise it changes nothing. -/
def FlipShows (s : Bochs) : Prop :=
  (s.Drawn → (bochsVbeFlip s).yOffset = s.h * s.current ∧ (bochsVbeFlip s).current ≠ s.current
    ∧ (bochsVbeFlip s).updateX0 = 0xFFFFFFFF ∧ (bochsVbeFlip s).updateX1 = 0
    ∧ (bochsVbeFlip s).updateY0 = 0xFFFFFFFF ∧ (bochsVbeFlip s).updateY1 = 0
    ∧ (bochsVbeFlip s).fb = s.fb)
  ∧ (¬ s.Drawn → bochsVbeFlip s = s)

/-- The flip decides by the right edge of the dirty area. -/
theorem flipShows_iff (s : Bochs) : FlipShows s ↔ (s.Drawn ↔ 0 < s.updateX1) := by
  -- whether the page is exchanged shows which branch was taken
  have hchange : 0 < s.updateX1 → (bochsVbeFlip s).current ≠ s.current := by
    intro hpos
    unfold bochsVbeFlip
    rw [if_pos hpos]
    show (if s.current = 0 then 1 else 0) ≠ s.current
    generalize s.current = page
    decide +revert
  have hkeep : ¬ 0 < s.updateX1 → bochsVbeFlip s = s := fun hzero => if_neg hzero
  constructor
  · rintro ⟨hdrawn, hnothing⟩
    constructor
    · intro h
      by_contra hzero
      exact (hdrawn h).2.1 (congrArg Bochs.current (hkeep hzero))
    · intro hpos
      by_contra h
      exact hchange hpos (congrArg Bochs.current (hnothing h))
  · intro hiff
    refine ⟨fun h => ?_, fun h => hkeep (mt hiff.mpr h)⟩
    have hpos := hiff.mp h
    have hoffset : u16 (s.h * s.current) = s.h * s.current := by
      have hh := s.hh
      have hmul : s.h * s.current ≤ s.h * 1 := Nat.mul_le_mul_left _ (Nat.le_of_lt_succ s.current.isLt)
      exact u16_of_lt (by omega)
    refine ⟨?_, hchange hpos, ?_⟩
    · unfold bochsVbeFlip
      rw [if_pos hpos]
      exact hoffset
    · unfold bochsVbeFlip
      rw [if_pos hpos]
      exact ⟨rfl, rfl, rfl, rfl, rfl⟩

/-- **Flipping.** After drawing calls since the last flip, the flip shows what was drawn exactly if the
following two agree: the calls store a word of the page, and they put a pixel beyond the column 0 that the
driver takes. -/
theorem bochs_vbe_flip_iff {font : Nat → Nat → Nat} {fuel : Nat} {s s' : Bochs} {calls : List GfxCall}
    (hstart : AfterFlip s) (hrun : runCalls font fuel s calls = .ok s') :
    FlipShows s' ↔ ((∃ call ∈ calls, ∃ k < s.w * s.h, call.Stores s.w s.h k)
      ↔ ∃ call ∈ calls, ∃ x, 0 < x ∧ call.Columns s.w s.h x) := by
  have hdraws := runCalls_draws hrun
  have hdrawn : s'.Drawn ↔ ∃ call ∈ calls, ∃ k < s.w * s.h, call.Stores s.w s.h k := by
    unfold Bochs.Drawn
    rw [hdraws.mode.w, hdraws.mode.h, hdraws.mode.page]
    simp only [hdraws.stored, hstart.stored, List.not_mem_nil, false_or]
    constructor
    · rintro ⟨k, hk, k', ⟨call, hcall, hstores⟩, heq⟩
      rw [Nat.add_left_cancel heq] at hk
      exact ⟨call, hcall, k', hk, hstores⟩
    · rintro ⟨call, hcall, k, hk, hstores⟩
      exact ⟨k, hk, k, ⟨call, hcall, hstores⟩, rfl⟩
  have hcolumn : 0 < s'.updateX1 ↔ ∃ call ∈ calls, ∃ x, 0 < x ∧ call.Columns s.w s.h x := by
    rw [hdraws.updateX1, hstart.x1]
    constructor
    · rintro (hpos | ⟨x, ⟨call, hcall, hx⟩, hpos⟩)
      · exact absurd hpos (Nat.lt_irrefl 0)
      · exact ⟨call, hcall, x, hpos, hx⟩
    · rintro ⟨call, hcall, x, hpos, hx⟩
      exact Or.inr ⟨x, ⟨call, hcall, hx⟩, hpos⟩
  rw [flipShows_iff, hdrawn, hcolumn]

/-- The state after `bochs_vbe_display`, on a screen of 2 by 2 pixels. -/
theorem tinyScreen_afterFlip : AfterFlip tinyScreen := ⟨rfl, rfl, rfl, rfl, rfl⟩

/-- A pixel that is put into the column 0 is not shown by the flip. -/
theorem bochs_vbe_flip_column_zero :
    ∃ s, runCalls (fun _ _ => 0) 0 tinyScreen [.putPixel 0 1 7] = .ok s ∧ bochsVbeFlip s = s
      ∧ ¬ FlipShows s := by
  refine ⟨bochsVbePutpixel32 tinyScreen 0 1 7, rfl, rfl, ?_⟩
  intro hshows
  have hdrawn : (bochsVbePutpixel32 tinyScreen 0 1 7).Drawn := ⟨2, by decide, by decide⟩
  exact (hshows.1 hdrawn).2.1 rfl

/-- A pixel of the column 1 is shown. -/
theorem bochs_vbe_flip_column_one : FlipShows (bochsVbePutpixel32 tinyScreen 1 1 7) := by
  refine (@bochs_vbe_flip_iff (fun _ _ => 0) 0 tinyScreen _ [.putPixel 1 1 7] tinyScreen_afterFlip rfl).mpr ?_
  refine iff_of_true ⟨_, List.mem_singleton_self _, 3, by decide, ?_⟩
    ⟨_, List.mem_singleton_self _, 1, by decide, 1, ⟨rfl, rfl⟩, by decide⟩
  exact Or.inl ⟨1, 1, ⟨rfl, rfl⟩, by decide, rfl⟩

end DiyOS
