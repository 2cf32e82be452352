import DiyOS.Basic
import DiyOS.Frame

/-!
# Blocks of frames (`kernel/memory/frame.c`)

`frame_get_blk` looks for consecutive frames whose bytes are zero, and marks as many from the start of the
last run that it came to, whether or not the run was long enough. Each mark overwrites the byte of its
eight frames.

* **`frameBlkLoop_finds`**, **`frameBlkLoop_start`** — what the search ends with.
* **`frame_get_blk_iff`** — it does what is expected of it for single frames only.
* **`HeldInv`**, **`frame_blocks_held`** — a frame of a block that has not been freed is not handed out again,
  as long as no byte is cleared while another frame of its eight is held.
-/

namespace DiyOS

open Word

/-! ## The source

`frame_get_blk(n)` counts `blk_left` down over frames that look free, and sets it back to `n` at one that does
not. `blk_start` is assigned at the first frame of each run, and not taken back when the run is too short. -/

/-- The first loop of `frame_get_blk`, with `left` frames to look at from `i` on: the value of `blk_start`
behind it, if it has been assigned one. -/
def frameBlkLoop (f : Frames) (blkSz : Nat) : Nat → Nat → Nat → Option Nat → Option Nat
  | 0, _, _, blkStart => blkStart
  | left + 1, i, blkLeft, blkStart =>
    if frameBusy f i then
      frameBlkLoop f blkSz left (i + 1) (if blkLeft < blkSz then blkSz else blkLeft) blkStart
    else
      let blkStart := if blkLeft = blkSz then some i else blkStart
      let blkLeft := sub32 blkLeft 1
      if blkLeft = 0 then blkStart else frameBlkLoop f blkSz left (i + 1) blkLeft blkStart

/-- The second loop, with `left` frames to mark from `i` on. -/
def frameSetLoop : Nat → Nat → Frames → Frames
  | 0, _, f => f
  | left + 1, i, f => frameSetLoop left (i + 1) (frameSet f i)

/-- `frame_get_blk`: the address that it returns, and the state it leaves. -/
def frameGetBlk (f : Frames) (blkSz : Nat) : Except Halt (Nat × Frames) :=
  match frameBlkLoop f blkSz f.framesCount 0 blkSz none with
  -- `blk_start` is used without a value
  | none => .error .undefined
  | some blkStart =>
    let g := frameSetLoop (u32 (blkStart + blkSz) - blkStart) blkStart f
    .ok (u32 (blkStart * 4096), { g with frameIdx := u32 (g.frameIdx + blkSz) })

/-! ## The search

`Counting` is the invariant of the loop: of the run that the search is in, `n - blkLeft` frames have been seen. A
frame looks free if its whole byte is zero, so that every run begins with the first frame of a byte. -/

/-- The byte of the frame is zero. -/
def Clear (f : Frames) (i : Nat) : Prop := f.physicalBitmap (i / 8) = 0

instance (f : Frames) (i : Nat) : Decidable (Clear f i) := inferInstanceAs (Decidable (_ = _))

/-- `n` frames from `b` on. -/
def ClearRun (f : Frames) (b n : Nat) : Prop := ∀ j, b ≤ j → j < b + n → Clear f j

section

variable {f : Frames} {n left i blkLeft : Nat} {blkStart : Option Nat}

theorem frameBlkLoop_busy (hle : blkLeft ≤ n) (h : ¬ Clear f i) :
    frameBlkLoop f n (left + 1) i blkLeft blkStart = frameBlkLoop f n left (i + 1) n blkStart := by
  have hbusy : frameBusy f i = true := by
    rw [← Bool.not_eq_false, frameBusy_eq_false_iff]
    exact h
  have hreset : (if blkLeft < n then n else blkLeft) = n := by
    split <;> omega
  rw [frameBlkLoop, if_pos hbusy, hreset]

/-- At one that does, it goes on, and ends at 1. -/
theorem frameBlkLoop_clear (hpos : 0 < blkLeft) (hlt : blkLeft < 4294967296) (h : Clear f i) :
    frameBlkLoop f n (left + 1) i blkLeft blkStart =
      if blkLeft = 1 then (if blkLeft = n then some i else blkStart)
      else frameBlkLoop f n left (i + 1) (blkLeft - 1) (if blkLeft = n then some i else blkStart) := by
  have hbusy : frameBusy f i = false := (frameBusy_eq_false_iff f i).mpr h
  have hdec : sub32 blkLeft 1 = blkLeft - 1 := sub32_of_le hpos hlt
  rw [frameBlkLoop, hbusy, if_neg Bool.false_ne_true]
  simp only [hdec]
  by_cases hone : blkLeft = 1
  · rw [if_pos hone, if_pos (by omega)]
  · rw [if_neg hone, if_neg (by omega)]

/-- `n - blkLeft` clear frames stand before `i`, from `blkStart` on. -/
structure Counting (f : Frames) (n i blkLeft : Nat) (blkStart : Option Nat) : Prop where
  pos : 0 < blkLeft
  le : blkLeft ≤ n
  before : n ≤ blkLeft + i
  start : blkLeft < n → blkStart = some (i + blkLeft - n)
  clear : ∀ j, i + blkLeft - n ≤ j → j < i → Clear f j

theorem Counting.busy (h : Counting f n i blkLeft blkStart) : Counting f n (i + 1) n blkStart :=
  ⟨Nat.lt_of_lt_of_le h.pos h.le, Nat.le_refl n, Nat.le_add_right n _, fun hlt => absurd hlt (Nat.lt_irrefl n),
    fun j hj hji => by omega⟩

theorem Counting.next (h : Counting f n i blkLeft blkStart) (hone : blkLeft ≠ 1) (hclear : Clear f i) :
    Counting f n (i + 1) (blkLeft - 1) (if blkLeft = n then some i else blkStart) := by
  obtain ⟨hpos, hle, hbefore, hstart, hrun⟩ := h
  refine ⟨by omega, by omega, by omega, fun _ => ?_, fun j hj hji => ?_⟩
  · split
    · exact congrArg some (by omega)
    · rw [hstart (by omega)]
      exact congrArg some (by omega)
  · rcases Nat.lt_or_ge j i with hlt | hge
    · exact hrun j (by omega) hlt
    · rwa [show j = i by omega]

/-- A run that is long enough is found, or another one before it. -/
theorem frameBlkLoop_finds (hn : n < 4294967296) (h : Counting f n i blkLeft blkStart)
    (hrun : ∃ a, i + blkLeft ≤ a + n ∧ a + n ≤ i + left ∧ ClearRun f a n) :
    ∃ b, frameBlkLoop f n left i blkLeft blkStart = some b ∧ b + n ≤ i + left ∧ ClearRun f b n := by
  induction left generalizing i blkLeft blkStart with
  | zero =>
    obtain ⟨a, hlo, hhi, _⟩ := hrun
    have hpos := h.pos
    omega
  | succ left ih =>
    have hle := h.le
    have hpos := h.pos
    have hbefore := h.before
    by_cases hclear : Clear f i
    · rw [frameBlkLoop_clear hpos (by omega) hclear]
      by_cases hone : blkLeft = 1
      · -- the last frame of a run
        rw [if_pos hone]
        refine ⟨i + blkLeft - n, ?_, by omega, fun j hj hjn => ?_⟩
        · split
          · exact congrArg some (by omega)
          · exact h.start (by omega)
        · rcases Nat.lt_or_ge j i with hlt | hge
          · exact h.clear j hj hlt
          · rwa [show j = i by omega]
      · rw [if_neg hone]
        obtain ⟨a, hlo, hhi, ha⟩ := hrun
        obtain ⟨b, hb, hend, hrun⟩ := ih (h.next hone hclear) ⟨a, by omega, by omega, ha⟩
        exact ⟨b, hb, by omega, hrun⟩
    · rw [frameBlkLoop_busy hle hclear]
      obtain ⟨a, hlo, hhi, ha⟩ := hrun
      -- the run does not contain `i`
      have hafter : i < a := by
        by_contra hnot
        exact hclear (ha i (by omega) (by omega))
      obtain ⟨b, hb, hend, hrun⟩ := ih h.busy ⟨a, by omega, by omega, ha⟩
      exact ⟨b, hb, by omega, hrun⟩

/-- `blk_start` is the first frame of a byte that is zero. -/
def Starts (f : Frames) (b : Nat) : Prop := Clear f b ∧ b % 8 = 0

/-- The frame that the search ends with begins a run. -/
theorem frameBlkLoop_start (hn : n < 4294967296) (hpos : 0 < blkLeft) (hle : blkLeft ≤ n)
    (hfirst : blkLeft = n → i % 8 = 0 ∨ ¬ Clear f (i - 1)) (hstart : ∀ b, blkStart = some b → Starts f b ∧ b < i)
    {b : Nat} (h : frameBlkLoop f n left i blkLeft blkStart = some b) : Starts f b ∧ b < i + left := by
  induction left generalizing i blkLeft blkStart with
  | zero => exact hstart b h
  | succ left ih =>
    have hlater : ∀ c, blkStart = some c → Starts f c ∧ c < i + 1 :=
      fun c hc => ⟨(hstart c hc).1, Nat.lt_succ_of_lt (hstart c hc).2⟩
    by_cases hclear : Clear f i
    · have hnew : ∀ c, (if blkLeft = n then some i else blkStart) = some c → Starts f c ∧ c < i + 1 := by
        intro c hc
        split at hc
        case isTrue heq =>
          cases hc
          refine ⟨⟨hclear, ?_⟩, Nat.lt_succ_self i⟩
          rcases hfirst heq with halign | hbusy
          · exact halign
          · -- the frame before it has another byte
            by_contra halign
            refine hbusy ?_
            show f.physicalBitmap ((i - 1) / 8) = 0
            rwa [show (i - 1) / 8 = i / 8 by omega]
        case isFalse => exact hlater c hc
      rw [frameBlkLoop_clear hpos (by omega) hclear] at h
      by_cases hone : blkLeft = 1
      · rw [if_pos hone] at h
        obtain ⟨hb, hlt⟩ := hnew b h
        exact ⟨hb, by omega⟩
      · rw [if_neg hone] at h
        obtain ⟨hb, hlt⟩ := ih (by omega) (by omega) (fun heq => by omega) hnew h
        exact ⟨hb, by omega⟩
    · rw [frameBlkLoop_busy hle hclear] at h
      obtain ⟨hb, hlt⟩ := ih (by omega) le_rfl (fun _ => Or.inr (by rwa [Nat.add_sub_cancel])) hlater h
      exact ⟨hb, by omega⟩

end

section

variable {f : Frames} {n b : Nat}

/-- Where there is a run that is long enough, the search finds one. -/
theorem frameBlkLoop_run (hpos : 0 < n) (hlt : n < 4294967296)
    (hrun : ∃ a, a + n ≤ f.framesCount ∧ ClearRun f a n) :
    ∃ b, frameBlkLoop f n f.framesCount 0 n none = some b ∧ b + n ≤ f.framesCount ∧ ClearRun f b n := by
  have hcounting : Counting f n 0 n none :=
    ⟨hpos, Nat.le_refl n, Nat.le_refl n, fun h => absurd h (Nat.lt_irrefl n), fun j hj hji => by omega⟩
  obtain ⟨a, ha, hclear⟩ := hrun
  obtain ⟨b, hb, hend, hrun⟩ := @frameBlkLoop_finds f n f.framesCount 0 n none hlt hcounting
    ⟨a, by omega, by omega, hclear⟩
  exact ⟨b, hb, by omega, hrun⟩

theorem frameBlkLoop_starts (hpos : 0 < n) (hlt : n < 4294967296)
    (h : frameBlkLoop f n f.framesCount 0 n none = some b) : Starts f b ∧ b < f.framesCount := by
  obtain ⟨hb, hbelow⟩ := frameBlkLoop_start hlt hpos le_rfl (fun _ => Or.inl rfl)
    (fun c hc => absurd hc.symm (Option.some_ne_none c)) h
  exact ⟨hb, by omega⟩

/-! ## The marks

`frame_set` stores the bit where it should add it. So of the eight frames of a byte only the last that was marked
stays marked, and a block of more than one is not taken as a whole. -/

theorem frameSetLoop_succ (m i : Nat) (f : Frames) :
    frameSetLoop (m + 1) i f = frameSet (frameSetLoop m i f) (i + m) := by
  induction m generalizing i f with
  | zero => rfl
  | succ m ih =>
    rw [frameSetLoop, ih, frameSetLoop, Nat.add_assoc, Nat.add_comm 1 m]

@[simp] theorem frameSetLoop_framesCount (m i : Nat) (f : Frames) :
    (frameSetLoop m i f).framesCount = f.framesCount := by
  induction m with
  | zero => rfl
  | succ m ih => rw [frameSetLoop_succ, frameSet, ih]

@[simp] theorem frameSetLoop_frameIdx (m i : Nat) (f : Frames) :
    (frameSetLoop m i f).frameIdx = f.frameIdx := by
  induction m with
  | zero => rfl
  | succ m ih => rw [frameSetLoop_succ, frameSet, ih]

/-- The mark that is made last. -/
theorem frameSetLoop_byte (m i g : Nat) (f : Frames) :
    (frameSetLoop (m + 1) i f).physicalBitmap g =
      if g = (i + m) / 8 then frameBit (i + m) else (frameSetLoop m i f).physicalBitmap g := by
  rw [frameSetLoop_succ]
  exact Function.update_apply _ _ _ _

/-- The bytes of the frames that are marked are not zero. -/
theorem frameSetLoop_eq_zero_iff (m i g : Nat) (f : Frames) :
    (frameSetLoop m i f).physicalBitmap g = 0
      ↔ f.physicalBitmap g = 0 ∧ ∀ j, i ≤ j → j < i + m → j / 8 ≠ g := by
  induction m with
  | zero => exact ⟨fun h => ⟨h, fun j hj hji => by omega⟩, fun h => h.1⟩
  | succ m ih =>
    rw [frameSetLoop_byte]
    by_cases hg : g = (i + m) / 8
    · rw [if_pos hg]
      exact iff_of_false (frameBit_ne_zero _) fun h => h.2 (i + m) (by omega) (by omega) hg.symm
    · rw [if_neg hg, ih]
      refine and_congr_right fun _ => ⟨fun h j hj hji => ?_, fun h j hj hji => h j hj (by omega)⟩
      rcases Nat.lt_or_ge j (i + m) with hlt | hge
      · exact h j hj hlt
      · rw [show j = i + m by omega]
        exact fun heq => hg heq.symm

/-- The byte of the first frame is left with the bit of a later one. -/
theorem frameSetLoop_overwritten (halign : b % 8 = 0) (m : Nat) (f : Frames) :
    ∃ j, b < j ∧ j < b + 8 ∧ (frameSetLoop (m + 2) b f).physicalBitmap (b / 8) = frameBit j := by
  induction m with
  | zero =>
    refine ⟨b + 1, by omega, by omega, ?_⟩
    rw [frameSetLoop_byte, if_pos (by omega)]
  | succ m ih =>
    obtain ⟨j, hlo, hhi, hj⟩ := ih
    rw [frameSetLoop_byte]
    by_cases hg : b / 8 = (b + (m + 2)) / 8
    · rw [if_pos hg]
      exact ⟨b + (m + 2), by omega, by omega, rfl⟩
    · rw [if_neg hg]
      exact ⟨j, hlo, hhi, hj⟩

/-- The bit of the frame is set. -/
def Marked (f : Frames) (i : Nat) : Prop := f.physicalBitmap (i / 8) &&& frameBit i ≠ 0

theorem frameBit_and_iff (i j : Nat) : frameBit i &&& frameBit j ≠ 0 ↔ i % 8 = j % 8 := by
  have hall : ∀ k < 8, ∀ l < 8,
      ((1 : UInt8) <<< UInt8.ofNat k) &&& ((1 : UInt8) <<< UInt8.ofNat l) ≠ 0 ↔ k = l := by decide
  exact hall (i % 8) (Nat.mod_lt _ (by decide)) (j % 8) (Nat.mod_lt _ (by decide))

theorem not_marked_of_clear {i : Nat} (h : Clear f i) : ¬ Marked f i := by
  unfold Marked
  rw [show f.physicalBitmap (i / 8) = 0 from h]
  exact not_not_intro (UInt8.zero_and)

/-- A single mark, in a byte that was zero. -/
theorem marked_frameSet (h : Clear f b) (j : Nat) : Marked (frameSet f b) j ↔ Marked f j ∨ j = b := by
  unfold Marked
  show Function.update f.physicalBitmap (b / 8) (frameBit b) (j / 8) &&& frameBit j ≠ 0 ↔ _
  by_cases hg : j / 8 = b / 8
  · have hclear : f.physicalBitmap (j / 8) = 0 := by
      rw [hg]
      exact h
    rw [hg, Function.update_self, frameBit_and_iff, ← hg, hclear, UInt8.zero_and]
    constructor
    · exact fun hmod => Or.inr (by omega)
    · rintro (hne | rfl)
      · exact absurd rfl hne
      · rfl
  · rw [Function.update_of_ne hg]
    exact ⟨Or.inl, fun hor => hor.resolve_right fun heq => hg (congrArg (· / 8) heq)⟩

/-- Two marks or more leave the first frame without its bit. -/
theorem not_marked_frameSetLoop (hstart : Starts f b) {m : Nat} (hm : m ≠ 1) :
    ¬ Marked (frameSetLoop m b f) b := by
  match m, hm with
  | 0, _ => exact not_marked_of_clear hstart.1
  | m + 2, _ =>
    obtain ⟨j, hlo, hhi, hj⟩ := frameSetLoop_overwritten hstart.2 m f
    unfold Marked
    rw [hj, frameBit_and_iff]
    have halign := hstart.2
    omega

end

/-! ## Runs with blocks

For single frames the search ends at a frame that is free indeed, and marking it is what `frame_get` does; so
runs with `frame_get_blk(1)` keep the invariant of `frame.c`. -/

/-- A call of `frame_get` or `frame_free` that returned, or of `frame_get_blk` with the address it gave. -/
inductive BlkCall where
  | frame (c : FrameCall)
  | getBlk (n addr : Nat)

/-- The frames of a block. -/
def blockFrames (addr n : Nat) : List Nat := (List.range n).map fun k => addr + 4096 * k

theorem blockFrames_one (addr : Nat) : blockFrames addr 1 = [addr] := by
  simp only [blockFrames, List.range_one, List.map_cons, List.map_nil, Nat.mul_zero, Nat.add_zero]

/-- One call. The frames of a block are handed out together, and given back one by one. -/
inductive BlkStep : FrameState → BlkCall → FrameState → Prop where
  | frame {s s' : FrameState} {c : FrameCall} (h : FrameStep s c s') : BlkStep s (.frame c) s'
  | getBlk {s : FrameState} {n addr : Nat} {f : Frames} (hpos : 0 < n) (hlt : n < 4294967296)
      (hget : frameGetBlk s.frames n = .ok (addr, f)) :
      BlkStep s (.getBlk n addr) ⟨f, blockFrames addr n ++ s.out⟩

/-- The frame `i` is neither reserved nor handed out. -/
def FrameState.Free (reserved : Set Nat) (s : FrameState) (i : Nat) : Prop :=
  i * 4096 ∉ reserved ∧ i * 4096 ∉ s.out

/-- `frame_get_blk` returns `n` free frames and marks these; or there are none, and it changes nothing and
returns 0. -/
def GetsBlock (reserved : Set Nat) (s : FrameState) (n : Nat) : Prop :=
  ∃ addr f, frameGetBlk s.frames n = .ok (addr, f) ∧
    ((∃ b, addr = b * 4096 ∧ b + n ≤ s.frames.framesCount ∧ (∀ i, b ≤ i → i < b + n → s.Free reserved i)
        ∧ ∀ i, Marked f i ↔ Marked s.frames i ∨ b ≤ i ∧ i < b + n)
      ∨ (¬ ∃ b, b + n ≤ s.frames.framesCount ∧ ∀ i, b ≤ i → i < b + n → s.Free reserved i)
        ∧ f.physicalBitmap = s.frames.physicalBitmap ∧ f.framesFree = s.frames.framesFree
        ∧ f.frameIdx = s.frames.frameIdx ∧ addr = 0)

section

variable {reserved : Set Nat} {s s' : FrameState} {n addr : Nat} {f : Frames}

/-- What the source does with the start it has found. -/
theorem frameGetBlk_spec (h : frameGetBlk s.frames n = .ok (addr, f)) :
    ∃ b, frameBlkLoop s.frames n s.frames.framesCount 0 n none = some b ∧ addr = u32 (b * 4096)
      ∧ f.physicalBitmap = (frameSetLoop (u32 (b + n) - b) b s.frames).physicalBitmap
      ∧ f.framesCount = s.frames.framesCount ∧ f.frameIdx = u32 (s.frames.frameIdx + n) := by
  unfold frameGetBlk at h
  split at h
  case h_1 => cases h
  case h_2 b hb =>
    cases h
    refine ⟨b, hb, rfl, rfl, ?_, ?_⟩
    · exact frameSetLoop_framesCount _ _ _
    · show u32 ((frameSetLoop _ b s.frames).frameIdx + n) = _
      rw [frameSetLoop_frameIdx]

/-- A byte that is zero belongs to an idle group, and so all of its frames are free. -/
theorem free_of_idle {i : Nat} (h : (s.pool reserved).Idle frameGroup (i / 8)) : s.Free reserved i :=
  h (i * 4096) (by rw [frameGroup, Nat.mul_div_cancel i (by decide)])

/-- A block of one frame is a frame of an idle group. -/
theorem FrameInv.getBlk_one (hinv : FrameInv reserved s) (h : frameGetBlk s.frames 1 = .ok (addr, f)) :
    ∃ b, addr = b * 4096 ∧ b < s.frames.framesCount ∧ Clear s.frames b
      ∧ f.physicalBitmap = (frameSet s.frames b).physicalBitmap ∧ f.framesCount = s.frames.framesCount := by
  obtain ⟨b, hb, haddr, hbitmap, hcount, _⟩ := frameGetBlk_spec h
  obtain ⟨⟨hclear, _⟩, hlt⟩ := frameBlkLoop_starts (by decide) (by decide) hb
  have hle := hinv.count_le
  rw [u32_of_lt (by omega)] at haddr
  rw [u32_of_lt (by omega), Nat.add_sub_cancel_left] at hbitmap
  exact ⟨b, haddr, hlt, hclear, hbitmap, hcount⟩

/-- **The step**, for blocks of one frame. -/
theorem FrameInv.stepBlk (hinv : FrameInv reserved s) {c : BlkCall} (hstep : BlkStep s c s')
    (hone : ∀ n addr, c = .getBlk n addr → n = 1) : FrameInv reserved s' := by
  cases hstep with
  | frame h => exact hinv.step h
  | getBlk hpos hlt hget =>
    obtain rfl := hone _ _ rfl
    obtain ⟨b, rfl, hb, hclear, hbitmap, hcount⟩ := hinv.getBlk_one hget
    have hframe : b * 4096 / 4096 = b := Nat.mul_div_cancel b (by decide)
    have hgroup : frameGroup (b * 4096) = b / 8 := by rw [frameGroup, hframe]
    rw [blockFrames_one]
    refine hinv.take (Nat.mul_mod_left b 4096) (by rw [hframe]; exact hb) ?_ ?_ hcount
    · rw [hgroup]
      exact (hinv.clear_iff _).mp hclear
    · rw [hgroup, hframe]
      exact hbitmap

/-- In a state with one owner for each group. -/
theorem FrameInv.getsBlock_iff (hinv : FrameInv reserved s) (hpos : 0 < n) (hlt : n < 4294967296) :
    GetsBlock reserved s n
      ↔ n = 1 ∧ ∃ g, 8 * g < s.frames.framesCount ∧ (s.pool reserved).Idle frameGroup g := by
  have hle := hinv.count_le
  constructor
  · rintro ⟨addr, f, hget, hcases⟩
    obtain ⟨b, hb, haddr, hbitmap, hcount, hidx⟩ := frameGetBlk_spec hget
    obtain ⟨hstart, hbelow⟩ := frameBlkLoop_starts hpos hlt hb
    rcases hcases with ⟨b', haddr', hend, hfree, hmarks⟩ | ⟨_, _, _, hsame, _⟩
    · rw [u32_of_lt (by omega)] at haddr
      obtain rfl : b = b' := by omega
      have hmarked : Marked (frameSetLoop (u32 (b + n) - b) b s.frames) b := by
        have hself := (hmarks b).mpr (Or.inr ⟨le_rfl, by omega⟩)
        unfold Marked at hself ⊢
        rwa [← hbitmap]
      have hone : u32 (b + n) - b = 1 := by
        by_contra hne
        exact not_marked_frameSetLoop hstart hne hmarked
      refine ⟨?_, b / 8, by omega, (hinv.clear_iff _).mp hstart.1⟩
      unfold u32 at hone
      omega
    · rw [hidx] at hsame
      unfold u32 at hsame
      omega
  · rintro ⟨rfl, g, hg, hidle⟩
    have hclear : Clear s.frames (8 * g) := by
      show s.frames.physicalBitmap (8 * g / 8) = 0
      rw [Nat.mul_div_cancel_left g (by decide)]
      exact (hinv.clear_iff g).mpr hidle
    obtain ⟨b, hb, _, _⟩ := frameBlkLoop_run hpos hlt ⟨8 * g, hg, fun j hj hjn => by
      rwa [show j = 8 * g by omega]⟩
    have hget : ∃ r, frameGetBlk s.frames 1 = .ok r := by
      unfold frameGetBlk
      rw [hb]
      exact ⟨_, rfl⟩
    obtain ⟨⟨addr, f⟩, hget⟩ := hget
    obtain ⟨b, haddr, hlt, hclear, hbitmap, _⟩ := hinv.getBlk_one hget
    refine ⟨addr, f, hget, Or.inl ⟨b, haddr, hlt, fun i hi hib => ?_, fun i => ?_⟩⟩
    · rw [show i = b by omega]
      exact free_of_idle ((hinv.clear_iff _).mp hclear)
    · have hset := marked_frameSet hclear i
      unfold Marked at hset ⊢
      rw [hbitmap, hset]
      exact or_congr_right (by omega)

end

/-- **Contiguous blocks.** In every state that calls reach from `frame_setup` whose blocks have had one frame
each, `frame_get_blk(n)` returns `n` free frames and marks exactly these, or fails and changes nothing, if
and only if `n` is 1 and some group of eight frames that starts below `frames_count` has no reserved and no
handed-out frame. -/
theorem frame_get_blk_iff {fuel memSize reservedStart reservedEnd : Nat} {f : Frames}
    (hmem : memSize < 4294967296) (hstart : reservedStart < 4294967296)
    (hsetup : frameSetup fuel memSize reservedStart reservedEnd (fun _ => 0) = some f)
    {tr : List (Transition FrameState BlkCall)} {s : FrameState} (hrun : Run BlkStep ⟨f, []⟩ tr s)
    (hone : ∀ τ ∈ tr, ∀ n addr, τ.event = .getBlk n addr → n = 1) {n : Nat} (hpos : 0 < n)
    (hlt : n < 4294967296) :
    GetsBlock (Reserved reservedStart reservedEnd) s n
      ↔ n = 1 ∧ ∃ g, 8 * g < s.frames.framesCount
          ∧ (s.pool (Reserved reservedStart reservedEnd)).Idle frameGroup g := by
  have hinv : FrameInv (Reserved reservedStart reservedEnd) s :=
    hrun.invariant_of_all (C := fun τ => ∀ n addr, τ.event = .getBlk n addr → n = 1)
      (frameSetup_inv hmem hstart hsetup) (fun _ _ _ h hstep hone => h.stepBlk hstep hone) hone
  exact hinv.getsBlock_iff hpos hlt

/-- Group 1 of the sixteen frames is idle. -/
theorem sixteenFrames_idle :
    (FrameState.pool (Reserved 0 0x1000) ⟨sixteenFrames, []⟩).Idle frameGroup 1 := by
  intro x hx
  rw [frameGroup] at hx
  refine ⟨?_, List.not_mem_nil⟩
  show x ∉ Reserved 0 0x1000
  rw [mem_reserved_zero_iff]
  omega

/-- Frame 8 has been handed out as a block of one and freed again. -/
def oneFreed : FrameState where
  frames := frameFree { frameSetLoop 1 8 sixteenFrames with frameIdx := 2 } 0x8000
  out := (blockFrames 0x8000 1).erase 0x8000

theorem oneFreed_run :
    Run BlkStep ⟨sixteenFrames, []⟩
      [⟨⟨sixteenFrames, []⟩, .getBlk 1 0x8000,
          ⟨{ frameSetLoop 1 8 sixteenFrames with frameIdx := 2 }, blockFrames 0x8000 1⟩⟩,
        ⟨⟨{ frameSetLoop 1 8 sixteenFrames with frameIdx := 2 }, blockFrames 0x8000 1⟩, .frame (.free 0x8000),
          oneFreed⟩] oneFreed := by
  have hget := @BlkStep.getBlk ⟨sixteenFrames, []⟩ 1 0x8000 { frameSetLoop 1 8 sixteenFrames with frameIdx := 2 }
    (by decide) (by decide) rfl
  have hfree : FrameStep ⟨{ frameSetLoop 1 8 sixteenFrames with frameIdx := 2 }, blockFrames 0x8000 1⟩
      (.free 0x8000) oneFreed := .free (by decide)
  exact (Run.nil.snoc hget).snoc (.frame hfree)

/-- Another block of one frame is handed out. -/
theorem frame_get_blk_sixteen : GetsBlock (Reserved 0 0x1000) oneFreed 1 := by
  refine (frame_get_blk_iff (by decide) (by decide) sixteenFrames_setup oneFreed_run ?_ (by decide)
    (by decide)).mpr ⟨rfl, 1, by decide, sixteenFrames_idle⟩
  intro τ hτ n addr hevent
  simp only [List.mem_cons, List.not_mem_nil, or_false] at hτ
  rcases hτ with rfl | rfl
  · exact (BlkCall.getBlk.inj hevent).1.symm
  · cases hevent

/-- A block of two frames: both are free, and only the second one is marked. A block of nine does not
fit: it is returned all the same, with a frame behind the last one. -/
theorem frame_get_blk_two :
    frameSetup 2 0x10000 0 0x1000 (fun _ => 0) = some sixteenFrames
      ∧ ¬ GetsBlock (Reserved 0 0x1000) ⟨sixteenFrames, []⟩ 2
      ∧ (frameGetBlk sixteenFrames 2).map (fun r => (r.1, r.2.physicalBitmap 1)) = .ok (0x8000, 2)
      ∧ ¬ GetsBlock (Reserved 0 0x1000) ⟨sixteenFrames, []⟩ 9
      ∧ (frameGetBlk sixteenFrames 9).map (fun r => (r.1, r.2.physicalBitmap 2)) = .ok (0x8000, 1) := by
  have hinv : FrameInv (Reserved 0 0x1000) ⟨sixteenFrames, []⟩ :=
    frameSetup_inv (by decide) (by decide) sixteenFrames_setup
  refine ⟨sixteenFrames_setup, fun h => ?_, by decide, fun h => ?_, by decide⟩
  · exact absurd ((hinv.getsBlock_iff (by decide) (by decide)).mp h).1 (by decide)
  · exact absurd ((hinv.getsBlock_iff (by decide) (by decide)).mp h).1 (by decide)

/-! ## Frames that are held

What is left of ownership when blocks are asked for. A byte is zero while none of its frames is marked; the last
mark in it is erased when that frame is freed, and then its other frames look free. If that never happens while
one of them is held, no frame is handed out twice. -/

/-- The invariant of a run in which no held frame is released: a byte that is zero has neither reserved nor
held frames, and no byte has both. -/
structure HeldInv (reserved : Set Nat) (s : FrameState) : Prop where
  idle : ∀ g, s.frames.physicalBitmap g = 0 → (s.pool reserved).Idle frameGroup g
  unreserved : ∀ a ∈ s.out, ∀ r ∈ reserved, frameGroup a ≠ frameGroup r
  nodup : s.out.Nodup
  count_le : s.frames.framesCount ≤ 1048576

/-- The call meets the condition under which the frames that are held stay held: a block is asked for only
when as many consecutive frames have bytes that are zero, and a frame whose byte has no bit but its own is
freed only when no other frame of that byte is held. -/
def Releases (τ : Transition FrameState BlkCall) : Prop :=
  (∀ n addr, τ.event = .getBlk n addr →
      ∃ a, a + n ≤ τ.pre.frames.framesCount ∧ ClearRun τ.pre.frames a n)
    ∧ ∀ addr, τ.event = .frame (.free addr) →
      τ.pre.frames.physicalBitmap (frameGroup addr) &&& ~~~frameBit (addr / 4096) = 0 →
        ∀ a ∈ τ.pre.out, frameGroup a = frameGroup addr → a = addr

/-- The call hands out no frame that is held. -/
def HandsOutFresh (τ : Transition FrameState BlkCall) : Prop :=
  (∀ addr, τ.event = .frame (.get addr) → τ.pre.frames.framesFree ≠ 0 → addr ∉ τ.pre.out)
    ∧ ∀ n addr, τ.event = .getBlk n addr → ∀ a ∈ blockFrames addr n, a ∉ τ.pre.out

section

variable {reserved : Set Nat} {s s' : FrameState} {addr : Nat} {f : Frames}

/-- **The beginning.** Nothing is held after `frame_setup`. -/
theorem HeldInv.of_setup {fuel memSize reservedStart reservedEnd : Nat} (hmem : memSize < 4294967296)
    (hstart : reservedStart < 4294967296)
    (h : frameSetup fuel memSize reservedStart reservedEnd (fun _ => 0) = some f) :
    HeldInv (Reserved reservedStart reservedEnd) ⟨f, []⟩ := by
  have hinv := frameSetup_inv hmem hstart h
  exact ⟨fun g => (hinv.clear_iff g).mp, nofun, List.nodup_nil, hinv.count_le⟩

/-- Frames whose bytes are zero are handed out, and their bytes are not zero then. -/
theorem HeldInv.handOut (h : HeldInv reserved s) {new : List Nat} (hnew : new.Nodup)
    (hclear : ∀ a ∈ new, s.frames.physicalBitmap (frameGroup a) = 0)
    (hzero : ∀ g, f.physicalBitmap g = 0 → s.frames.physicalBitmap g = 0 ∧ ∀ a ∈ new, frameGroup a ≠ g)
    (hcount : f.framesCount = s.frames.framesCount) :
    HeldInv reserved ⟨f, new ++ s.out⟩ ∧ ∀ a ∈ new, a ∉ s.out := by
  have hfresh : ∀ a ∈ new, a ∉ s.out := fun a ha => (h.idle _ (hclear a ha) a rfl).2
  refine ⟨⟨fun g hg x hx => ?_, fun a ha r hr => ?_, ?_, ?_⟩, hfresh⟩
  · obtain ⟨hold, hnot⟩ := hzero g hg
    obtain ⟨hreserved, hout⟩ := h.idle g hold x hx
    refine ⟨hreserved, fun hmem => ?_⟩
    exact (List.mem_append.mp hmem).elim (fun hin => hnot x hin hx) hout
  · rcases List.mem_append.mp ha with hin | hin
    · exact fun heq => (h.idle _ (hclear a hin) r heq.symm).1 hr
    · exact h.unreserved a hin r hr
  · exact List.nodup_append.mpr ⟨hnew, h.nodup, fun a ha b hb heq => hfresh a ha (heq ▸ hb)⟩
  · show f.framesCount ≤ 1048576
    rw [hcount]
    exact h.count_le

/-- `frame_get` hands out a frame that nobody holds. -/
theorem HeldInv.get (h : HeldInv reserved s) (hfree : s.frames.framesFree ≠ 0) {fuel : Nat}
    (hget : frameGet fuel s.frames = some (addr, f)) :
    HeldInv reserved ⟨f, addr :: s.out⟩ ∧ addr ∉ s.out := by
  obtain ⟨i, hlt, hclear, haddr, hbitmap, hcount, _⟩ := frameGet_spec hfree hget
  have hle := h.count_le
  rw [u32_of_lt (by omega)] at haddr
  have hgroup : frameGroup addr = i / 8 := by
    rw [frameGroup, haddr, Nat.mul_div_cancel i (by decide)]
  have hnew : ∀ a ∈ [addr], frameGroup a = i / 8 := fun a ha => by rw [List.mem_singleton.mp ha, hgroup]
  have hzero : ∀ g, f.physicalBitmap g = 0 →
      s.frames.physicalBitmap g = 0 ∧ ∀ a ∈ [addr], frameGroup a ≠ g := by
    intro g hg
    rw [hbitmap, Function.update_apply] at hg
    split at hg
    · exact absurd hg (frameBit_ne_zero i)
    · next hne => exact ⟨hg, fun a ha heq => hne (by rw [← heq, hnew a ha])⟩
  obtain ⟨hheld, hfresh⟩ := h.handOut (List.pairwise_singleton _ addr)
    (fun a ha => by rw [hnew a ha]; exact hclear) hzero hcount
  exact ⟨hheld, hfresh addr (List.mem_singleton.mpr rfl)⟩

/-- A block of frames that nobody holds, if the search finds a run. -/
theorem HeldInv.getBlk (h : HeldInv reserved s) {n : Nat} (hpos : 0 < n) (hlt : n < 4294967296)
    (hrun : ∃ a, a + n ≤ s.frames.framesCount ∧ ClearRun s.frames a n)
    (hget : frameGetBlk s.frames n = .ok (addr, f)) :
    HeldInv reserved ⟨f, blockFrames addr n ++ s.out⟩ ∧ ∀ a ∈ blockFrames addr n, a ∉ s.out := by
  obtain ⟨b, hb, haddr, hbitmap, hcount, _⟩ := frameGetBlk_spec hget
  obtain ⟨b', hb', hend, hclear⟩ := frameBlkLoop_run hpos hlt hrun
  obtain rfl : b = b' := Option.some.inj (hb.symm.trans hb')
  have hle := h.count_le
  rw [u32_of_lt (by omega)] at haddr
  rw [u32_of_lt (by omega), Nat.add_sub_cancel_left] at hbitmap
  -- the frames of the block are `b`, …, `b + n - 1`
  have hmem : ∀ a, a ∈ blockFrames addr n ↔ ∃ k < n, a = (b + k) * 4096 := by
    intro a
    simp only [blockFrames, List.mem_map, List.mem_range]
    exact exists_congr fun k => and_congr_right fun _ => by omega
  have hgroup : ∀ k, frameGroup ((b + k) * 4096) = (b + k) / 8 := fun k => by
    rw [frameGroup, Nat.mul_div_cancel _ (by decide)]
  refine h.handOut ?_ (fun a ha => ?_) (fun g hg => ?_) hcount
  · exact List.pairwise_map.mpr (List.nodup_range.imp fun hkl heq => hkl (by omega))
  · obtain ⟨k, hk, rfl⟩ := (hmem a).mp ha
    rw [hgroup]
    exact hclear (b + k) (by omega) (by omega)
  · rw [hbitmap, frameSetLoop_eq_zero_iff] at hg
    refine ⟨hg.1, fun a ha => ?_⟩
    obtain ⟨k, hk, rfl⟩ := (hmem a).mp ha
    rw [hgroup]
    exact hg.2 (b + k) (by omega) (by omega)

/-- A frame is given back, and no byte of another is cleared. -/
theorem HeldInv.free (h : HeldInv reserved s) (hout : addr ∈ s.out)
    (honly : s.frames.physicalBitmap (frameGroup addr) &&& ~~~frameBit (addr / 4096) = 0 →
      ∀ a ∈ s.out, frameGroup a = frameGroup addr → a = addr) :
    HeldInv reserved ⟨frameFree s.frames addr, s.out.erase addr⟩ := by
  have hother : ∀ g, g ≠ frameGroup addr →
      (frameFree s.frames addr).physicalBitmap g = s.frames.physicalBitmap g := by
    intro g hg
    unfold frameFree frameUnsetAddress frameUnset
    split
    · rfl
    · exact Function.update_of_ne hg _ _
  -- `frame_free` clears the bit of the frame, unless the byte is zero already
  have hcleared : (frameFree s.frames addr).physicalBitmap (frameGroup addr) = 0 →
      s.frames.physicalBitmap (frameGroup addr) &&& ~~~frameBit (addr / 4096) = 0 := by
    unfold frameFree frameUnsetAddress frameUnset
    split
    · intro hzero
      rw [hzero]
      exact UInt8.zero_and
    · intro hzero
      exact (Function.update_self (addr / 4096 / 8) _ s.frames.physicalBitmap).symm.trans hzero
  have hcount : (frameFree s.frames addr).framesCount = s.frames.framesCount := by
    unfold frameFree frameUnsetAddress frameUnset
    split <;> rfl
  refine ⟨fun g hg x hx => ?_, fun a ha => h.unreserved a (List.mem_of_mem_erase ha), h.nodup.erase addr, ?_⟩
  -- in the byte that becomes zero, only `addr` was held
  · by_cases hsame : g = frameGroup addr
    · subst hsame
      refine ⟨fun hr => h.unreserved addr hout x hr hx.symm, fun hmem => ?_⟩
      have heq := honly (hcleared hg) x (List.mem_of_mem_erase hmem) hx
      rw [heq] at hmem
      exact h.nodup.not_mem_erase hmem
    · have hold : s.frames.physicalBitmap g = 0 := by
        rw [← hother g hsame]
        exact hg
      obtain ⟨hreserved, hnot⟩ := h.idle g hold x hx
      exact ⟨hreserved, fun hmem => hnot (List.mem_of_mem_erase hmem)⟩
  · show (frameFree s.frames addr).framesCount ≤ 1048576
    rw [hcount]
    exact h.count_le

/-- One call. -/
theorem HeldInv.step (h : HeldInv reserved s) {c : BlkCall} (hstep : BlkStep s c s')
    (hreleases : Releases ⟨s, c, s'⟩) : HeldInv reserved s' ∧ HandsOutFresh ⟨s, c, s'⟩ := by
  obtain ⟨hblock, hfree⟩ := hreleases
  cases hstep with
  | frame hc =>
    cases hc with
    | get hsome hget =>
      obtain ⟨hheld, hfresh⟩ := h.get hsome hget
      refine ⟨hheld, ?_, nofun⟩
      rintro _ ⟨⟩ _
      exact hfresh
    | getNone hnone hget =>
      obtain ⟨-, rfl⟩ := frameGet_none hnone hget
      exact ⟨h, fun _ _ hsome => absurd hnone hsome, nofun⟩
    | free hout => exact ⟨h.free hout (hfree _ rfl), nofun, nofun⟩
  | getBlk hpos hlt hget =>
    obtain ⟨hheld, hfresh⟩ := h.getBlk hpos hlt (hblock _ _ rfl) hget
    refine ⟨hheld, nofun, ?_⟩
    rintro _ _ ⟨⟩
    exact hfresh

end

/-- **Freeing a part of a block.** From `frame_setup` on a zeroed bitmap, through any run of `frame_get`,
`frame_get_blk` and `frame_free` whose calls meet the condition, no frame is handed out that is held, be it
of a block of which other frames have been freed. -/
theorem frame_blocks_held {fuel memSize reservedStart reservedEnd : Nat} {f : Frames}
    (hmem : memSize < 4294967296) (hstart : reservedStart < 4294967296)
    (hsetup : frameSetup fuel memSize reservedStart reservedEnd (fun _ => 0) = some f)
    {tr : List (Transition FrameState BlkCall)} {s : FrameState} (hrun : Run BlkStep ⟨f, []⟩ tr s)
    (hreleases : ∀ τ ∈ tr, Releases τ) : ∀ τ ∈ tr, HandsOutFresh τ :=
  hrun.all_of_all (HeldInv.of_setup hmem hstart hsetup)
    (fun _ _ _ hinv hstep hcond => hinv.step hstep hcond) hreleases

/-- The frames 8 to 15 have been handed out as a block: the byte has the bit of the last one. -/
def eightHeld : FrameState where
  frames := { frameSetLoop 8 8 sixteenFrames with frameIdx := 9 }
  out := blockFrames 0x8000 8

/-- The last frame of the block has been freed: the byte is zero. -/
def sevenHeld : FrameState where
  frames := frameFree eightHeld.frames 0xF000
  out := eightHeld.out.erase 0xF000

/-- The second frame of the block has been handed out again. -/
def heldTwice : FrameState where
  frames := { frameSet sevenHeld.frames 9 with frameIdx := 10 }
  out := 0x9000 :: sevenHeld.out

theorem eightHeld_getBlk : BlkStep ⟨sixteenFrames, []⟩ (.getBlk 8 0x8000) eightHeld :=
  @BlkStep.getBlk ⟨sixteenFrames, []⟩ 8 0x8000 eightHeld.frames (by decide) (by decide) rfl

/-- Twenty-four frames, the first reserved. -/
def twentyFourFrames : Frames where
  physicalBitmap := Function.update (fun _ => 0) 0 1
  framesCount := 24
  framesFree := 23
  frameIdx := 1

theorem twentyFourFrames_setup :
    frameSetup 2 0x18000 0 0x1000 (fun _ => 0) = some twentyFourFrames := rfl

/-- The frames 8 to 15 have been handed out as a block. -/
def blockHeld : FrameState where
  frames := { frameSetLoop 8 8 twentyFourFrames with frameIdx := 9 }
  out := blockFrames 0x8000 8

/-- The first frame of the block has been freed: the byte still has the bit of the last one. -/
def firstFreed : FrameState where
  frames := frameFree blockHeld.frames 0x8000
  out := blockHeld.out.erase 0x8000

/-- Frame 16 has been handed out. -/
def sixteenthHeld : FrameState where
  frames := { frameSet firstFreed.frames 16 with frameIdx := 10 }
  out := 0x10000 :: firstFreed.out

/-- It has been freed: its byte is zero again. -/
def sixteenthFreed : FrameState where
  frames := frameFree sixteenthHeld.frames 0x10000
  out := sixteenthHeld.out.erase 0x10000

/-- The calls that lead from `twentyFourFrames` to `sixteenthFreed`. -/
def partFreed : List (Transition FrameState BlkCall) :=
  [⟨⟨twentyFourFrames, []⟩, .getBlk 8 0x8000, blockHeld⟩, ⟨blockHeld, .frame (.free 0x8000), firstFreed⟩,
    ⟨firstFreed, .frame (.get 0x10000), sixteenthHeld⟩,
    ⟨sixteenthHeld, .frame (.free 0x10000), sixteenthFreed⟩]

theorem partFreed_run : Run BlkStep ⟨twentyFourFrames, []⟩ partFreed sixteenthFreed := by
  have hblock := @BlkStep.getBlk ⟨twentyFourFrames, []⟩ 8 0x8000 blockHeld.frames (by decide) (by decide) rfl
  have hfirst : FrameStep blockHeld (.free 0x8000) firstFreed := .free (by decide)
  have hget : FrameStep firstFreed (.get 0x10000) sixteenthHeld :=
    FrameStep.get (by decide) (show frameGet 1 firstFreed.frames = _ from rfl)
  have hfree : FrameStep sixteenthHeld (.free 0x10000) sixteenthFreed := .free (by decide)
  exact (((Run.nil.snoc hblock).snoc (.frame hfirst)).snoc (.frame hget)).snoc (.frame hfree)

/-- The frames of the block that have not been freed stay held. -/
theorem frame_blocks_held_eight : Run BlkStep ⟨twentyFourFrames, []⟩ partFreed sixteenthFreed
    ∧ ∀ τ ∈ partFreed, HandsOutFresh τ := by
  refine ⟨partFreed_run, frame_blocks_held (by decide) (by decide) twentyFourFrames_setup partFreed_run ?_⟩
  intro τ hτ
  simp only [partFreed, List.mem_cons, List.not_mem_nil, or_false] at hτ
  rcases hτ with rfl | rfl | rfl | rfl
  · refine ⟨fun n addr hevent => ?_, fun addr hevent => ?_⟩
    · obtain ⟨rfl, rfl⟩ := BlkCall.getBlk.inj hevent
      refine ⟨8, by decide, fun j hlo hhi => ?_⟩
      have hbyte : j / 8 = 1 := by omega
      show twentyFourFrames.physicalBitmap (j / 8) = 0
      rw [hbyte]
      rfl
    · cases hevent
  · -- the byte keeps the bit of the last frame
    refine ⟨fun n addr hevent => ?_, fun addr hevent hzero => ?_⟩
    · cases hevent
    · obtain rfl := FrameCall.free.inj (BlkCall.frame.inj hevent)
      exact absurd hzero (by decide)
  · refine ⟨fun n addr hevent => ?_, fun addr hevent => ?_⟩
    · cases hevent
    · cases hevent
  · -- no other frame of the byte is held
    refine ⟨fun n addr hevent => ?_, fun addr hevent hzero => ?_⟩
    · cases hevent
    · obtain rfl := FrameCall.free.inj (BlkCall.frame.inj hevent)
      decide

/-- Once the last frame of the block is freed, the second one is handed out again. -/
theorem frame_blocks_held_twice :
    frameSetup 2 0x10000 0 0x1000 (fun _ => 0) = some sixteenFrames
      ∧ Run BlkStep ⟨sixteenFrames, []⟩
          [⟨⟨sixteenFrames, []⟩, .getBlk 8 0x8000, eightHeld⟩, ⟨eightHeld, .frame (.free 0xF000), sevenHeld⟩,
            ⟨sevenHeld, .frame (.get 0x9000), heldTwice⟩] heldTwice
      ∧ ¬ HandsOutFresh ⟨sevenHeld, .frame (.get 0x9000), heldTwice⟩ := by
  have hfree : FrameStep eightHeld (.free 0xF000) sevenHeld := .free (by decide)
  have hget : FrameStep sevenHeld (.get 0x9000) heldTwice :=
    FrameStep.get (by decide) (show frameGet 1 sevenHeld.frames = _ from rfl)
  refine ⟨sixteenFrames_setup, ?_, fun h => ?_⟩
  · exact ((Run.nil.snoc eightHeld_getBlk).snoc (.frame hfree)).snoc (.frame hget)
  · exact h.1 0x9000 rfl (by decide) (by decide)

end DiyOS
