import DiyOS.Lib.Pool
import DiyOS.Lib.Run
import DiyOS.Lib.Word

/-!
# The physical frame allocator (`kernel/memory/frame.c`)

`physical_bitmap` has one bit for each 4096-byte frame, but `frame_set` overwrites the whole byte
and the free test of `frame_get` uses `&&` where `&` is meant, so it looks at the byte as a whole.
A byte that is not zero therefore blocks all eight frames of its **group**, and each group has one
owner at most.

* **`FrameInv`** — the invariant that makes this safe: the bytes of the bitmap are zero exactly for
  the idle groups of a `Pool` (`clear_iff`), and the byte of an owner's group is the owner's bit
  (`owner_bit`), so that freeing the owner clears it.
* **`frame_ownership`** — what `frame_get` returns is never reserved and never handed out twice,
  and `frames_free` counts the frames that remain.
* **`frameGet_progress_iff`** — the price: `frame_get` finds a frame only while some group is idle,
  whatever `frames_free` says, and otherwise never returns.
-/

namespace DiyOS

open Word

/-- The state of the allocator: `physical_bitmap` (a byte for every eight frames) and its three
counters. -/
structure Frames where
  physicalBitmap : Nat → UInt8
  framesCount : Nat
  framesFree : Nat
  frameIdx : Nat

/-- `1 << (i % 8)`. -/
def frameBit (i : Nat) : UInt8 := 1 <<< UInt8.ofNat (i % 8)

def frameSet (f : Frames) (i : Nat) : Frames :=
  { f with
    physicalBitmap := Function.update f.physicalBitmap (i / 8) (frameBit i)
    framesFree := sub32 f.framesFree 1 }

def frameSetAddress (f : Frames) (addr : Nat) : Frames := frameSet f (addr / 4096)

def frameUnset (f : Frames) (i : Nat) : Frames :=
  if i > f.framesCount then f
  else
    { f with
      physicalBitmap :=
        Function.update f.physicalBitmap (i / 8) (f.physicalBitmap (i / 8) &&& ~~~frameBit i)
      framesFree := u32 (f.framesFree + 1) }

def frameUnsetAddress (f : Frames) (addr : Nat) : Frames := frameUnset f (addr / 4096)

/-- The loop of `frame_setup`: `i` runs from `reserved_start` in steps of a frame. -/
def frameSetupLoop : Nat → Nat → Nat → Frames → Option Frames
  | 0, _, _, _ => none
  | fuel + 1, i, reservedEnd, f =>
    if i < reservedEnd then
      let f := frameSetAddress f i
      frameSetupLoop fuel (u32 (i + 4096)) reservedEnd { f with frameIdx := u32 (f.frameIdx + 1) }
    else some f

/-- `frame_setup`; `none` when the fuel runs out before the loop ends. -/
def frameSetup (fuel memSize reservedStart reservedEnd : Nat) (bitmap : Nat → UInt8) :
    Option Frames :=
  frameSetupLoop fuel reservedStart reservedEnd
    { physicalBitmap := bitmap
      framesCount := memSize / 4096
      framesFree := memSize / 4096
      frameIdx := 0 }

/-- The test of `frame_get`: `physical_bitmap[i_byte] && (1 << i_bit)`. -/
def frameBusy (f : Frames) (i : Nat) : Bool :=
  f.physicalBitmap (i / 8) != 0 && (1 <<< (i % 8) : Nat) != 0

/-- The scan of `frame_get`: the first of the `n` frames from `i` on that is not busy. -/
def frameScan (f : Frames) : Nat → Nat → Option Nat
  | 0, _ => none
  | n + 1, i => if frameBusy f i then frameScan f n (i + 1) else some i

/-- `frame_get`: the address it returns and the state it leaves. Each recursive call takes one unit
of fuel; `none` when it runs out. -/
def frameGet : Nat → Frames → Option (Nat × Frames)
  | 0, _ => none
  | fuel + 1, f =>
    if f.framesFree = 0 then some (0, f)
    else
      match frameScan f (f.framesCount - f.frameIdx) f.frameIdx with
      | some i =>
        let g := frameSet f i
        some (u32 ((i / 8 * 8 + i % 8) * 4096), { g with frameIdx := u32 (g.frameIdx + 1) })
      | none =>
        -- nothing above the current index: start again from the first frame
        frameGet fuel { f with frameIdx := 0 }

def frameFree (f : Frames) (addr : Nat) : Frames := frameUnsetAddress f addr

/-! ## Single bits and bytes -/

theorem frameBit_ne_zero (i : Nat) : frameBit i ≠ 0 := by
  have hall : ∀ k < 8, (1 : UInt8) <<< UInt8.ofNat k ≠ 0 := by decide
  exact hall (i % 8) (Nat.mod_lt _ (by decide))

/-- Clearing the only bit of a byte leaves zero. -/
theorem frameBit_clear (i : Nat) : frameBit i &&& ~~~frameBit i = 0 := by
  have hall : ∀ k < 8, ((1 : UInt8) <<< UInt8.ofNat k) &&& ~~~((1 : UInt8) <<< UInt8.ofNat k) = 0 := by
    decide
  exact hall (i % 8) (Nat.mod_lt _ (by decide))

/-- The right operand of `&&` is never zero: the test is one of the whole byte. -/
theorem frameBusy_eq_false_iff (f : Frames) (i : Nat) :
    frameBusy f i = false ↔ f.physicalBitmap (i / 8) = 0 := by
  have hbit : (1 <<< (i % 8) : Nat) ≠ 0 := by
    rw [Nat.shiftLeft_eq, Nat.one_mul]
    exact Nat.pos_iff_ne_zero.mp (Nat.pow_pos (by decide))
  simp [frameBusy, hbit]

/-! ## What `frame_get` does -/

theorem frameScan_some {f : Frames} {n i j : Nat} (h : frameScan f n i = some j) :
    i ≤ j ∧ j < i + n ∧ f.physicalBitmap (j / 8) = 0 := by
  induction n generalizing i with
  | zero => cases h
  | succ n ih =>
    rw [frameScan] at h
    split at h
    · rcases ih h with ⟨hle, hlt, hclear⟩
      exact ⟨by omega, by omega, hclear⟩
    · next hbusy =>
      obtain rfl := Option.some.inj h
      exact ⟨le_refl i, by omega,
        (frameBusy_eq_false_iff f i).mp (Bool.eq_false_iff.mpr hbusy)⟩

theorem frameScan_none {f : Frames} {n i : Nat} (h : frameScan f n i = none) {j : Nat}
    (hlo : i ≤ j) (hhi : j < i + n) : f.physicalBitmap (j / 8) ≠ 0 := by
  induction n generalizing i with
  | zero => omega
  | succ n ih =>
    rw [frameScan] at h
    split at h
    · next hbusy =>
      by_cases hij : j = i
      · subst hij
        intro hclear
        rw [(frameBusy_eq_false_iff f j).mpr hclear] at hbusy
        cases hbusy
      · exact ih h (by omega) (by omega)
    · cases h

/-- A `frame_get` that has frames left takes a frame `i` of a group whose byte is zero, and sets
that byte to the bit of `i`. -/
theorem frameGet_spec {fuel : Nat} {f f' : Frames} {addr : Nat} (hfree : f.framesFree ≠ 0)
    (h : frameGet fuel f = some (addr, f')) :
    ∃ i < f.framesCount, f.physicalBitmap (i / 8) = 0 ∧ addr = u32 (i * 4096)
      ∧ f'.physicalBitmap = Function.update f.physicalBitmap (i / 8) (frameBit i)
      ∧ f'.framesCount = f.framesCount ∧ f'.framesFree = sub32 f.framesFree 1 := by
  induction fuel generalizing f with
  | zero => cases h
  | succ fuel ih =>
    rw [frameGet, if_neg hfree] at h
    split at h
    · next i hscan =>
      rcases frameScan_some hscan with ⟨hle, hlt, hclear⟩
      have hsplit : i / 8 * 8 + i % 8 = i := by omega
      cases h
      exact ⟨i, by omega, hclear, by rw [hsplit], rfl, rfl, rfl⟩
    · -- the second scan starts at frame 0 and sees the same bitmap
      exact @ih { f with frameIdx := 0 } hfree h

/-- With a zero byte below `frames_count`, the scan that starts at frame 0 succeeds. -/
theorem frameGet_of_clear {f : Frames} (hfree : f.framesFree ≠ 0) {i : Nat}
    (hi : i < f.framesCount) (hclear : f.physicalBitmap (i / 8) = 0) :
    ∃ r, frameGet 2 f = some r := by
  rw [frameGet, if_neg hfree]
  cases hscan : frameScan f (f.framesCount - f.frameIdx) f.frameIdx with
  | some j => exact ⟨_, rfl⟩
  | none =>
    show ∃ r, frameGet 1 { f with frameIdx := 0 } = some r
    rw [frameGet, if_neg hfree]
    cases hscan0 : frameScan { f with frameIdx := 0 } (f.framesCount - 0) 0 with
    | some j => exact ⟨_, rfl⟩
    | none => exact absurd hclear (frameScan_none hscan0 (Nat.zero_le i) (by omega))

/-- With no frame left `frame_get` returns 0 and changes nothing. -/
theorem frameGet_none {f f' : Frames} (hfree : f.framesFree = 0) {fuel addr : Nat}
    (h : frameGet fuel f = some (addr, f')) : addr = 0 ∧ f' = f := by
  cases fuel with
  | zero => cases h
  | succ fuel =>
    rw [frameGet, if_pos hfree] at h
    cases h
    exact ⟨rfl, rfl⟩

/-- With no zero byte below `frames_count`, and `frames_free` not zero, `frame_get` calls itself
for ever. -/
theorem frameGet_diverges {f : Frames} (hfree : f.framesFree ≠ 0)
    (hbusy : ∀ i < f.framesCount, f.physicalBitmap (i / 8) ≠ 0) (fuel : Nat) :
    frameGet fuel f = none := by
  cases hget : frameGet fuel f with
  | none => rfl
  | some r =>
    rcases frameGet_spec hfree hget with ⟨i, hlt, hclear, _⟩
    exact absurd hclear (hbusy i hlt)

/-! ## `frame_setup`

The loop marks the frames of the addresses `reserved_start`, `reserved_start + 4096`, … below
`reserved_end`. It can only end without wrapping: an `i` that wraps below 4096 comes back to the
same place. -/

/-- The addresses whose frame `frame_setup` marks. -/
def Reserved (reservedStart reservedEnd : Nat) : Set Nat :=
  { addr | ∃ k, reservedStart + 4096 * k < reservedEnd ∧
      (reservedStart + 4096 * k) / 4096 = addr / 4096 }

/-- Once an `i` below `reserved_end` wraps when stepped, no `i` at or below it with the same offset
in its page leaves the loop. -/
theorem frameSetupLoop_diverges {i reservedEnd : Nat} (hi : i < reservedEnd) (hlt : i < 4294967296)
    (hwrap : 4294967296 ≤ i + 4096) :
    ∀ (fuel j : Nat) (f : Frames), j ≤ i → j % 4096 = i % 4096 →
      frameSetupLoop fuel j reservedEnd f = none := by
  intro fuel
  induction fuel with
  | zero =>
    intro j f _ _
    rfl
  | succ fuel ih =>
    intro j f hj hmod
    rw [frameSetupLoop, if_pos (by omega)]
    apply ih
    · unfold u32
      omega
    · unfold u32
      omega

theorem frameSetAddress_ne_zero_iff (f : Frames) (addr g : Nat) :
    (frameSetAddress f addr).physicalBitmap g ≠ 0 ↔
      f.physicalBitmap g ≠ 0 ∨ addr / 4096 / 8 = g := by
  by_cases hg : g = addr / 4096 / 8
  · subst hg
    simpa [frameSetAddress, frameSet] using frameBit_ne_zero (addr / 4096)
  · simp [frameSetAddress, frameSet, Function.update_of_ne hg, Ne.symm hg]

/-- The addresses `i`, `i + 4096`, … are `i` and those that follow it. -/
theorem exists_page_step_iff {P : Nat → Prop} (i : Nat) :
    (∃ k, P (i + 4096 * k)) ↔ P i ∨ ∃ k, P (i + 4096 + 4096 * k) := by
  have hsucc : ∀ k, i + 4096 * (k + 1) = i + 4096 + 4096 * k := fun k => by omega
  constructor
  · rintro ⟨k, hk⟩
    cases k with
    | zero => exact Or.inl hk
    | succ k => exact Or.inr ⟨k, hsucc k ▸ hk⟩
  · rintro (h | ⟨k, hk⟩)
    · exact ⟨0, h⟩
    · exact ⟨k + 1, (hsucc k).symm ▸ hk⟩

theorem frameSetupLoop_spec {fuel i reservedEnd : Nat} {f f' : Frames} (hi : i < 4294967296)
    (h : frameSetupLoop fuel i reservedEnd f = some f') :
    f'.framesCount = f.framesCount
      ∧ (∀ g, f'.physicalBitmap g ≠ 0 ↔ f.physicalBitmap g ≠ 0 ∨
          ∃ k, i + 4096 * k < reservedEnd ∧ (i + 4096 * k) / 4096 / 8 = g)
      ∧ ((reservedEnd - i + 4095) / 4096 ≤ f.framesFree → f.framesFree < 4294967296 →
          f'.framesFree + (reservedEnd - i + 4095) / 4096 = f.framesFree) := by
  induction fuel generalizing i f with
  | zero => cases h
  | succ fuel ih =>
    by_cases hlt : i < reservedEnd
    · -- a loop whose index wraps does not end
      have hstep : i + 4096 < 4294967296 := by
        by_contra hwrap
        have hnone := frameSetupLoop_diverges hlt hi (by omega) (fuel + 1) i f (le_refl i) rfl
        rw [hnone] at h
        cases h
      rw [frameSetupLoop, if_pos hlt, u32_of_lt hstep] at h
      rcases ih hstep h with ⟨hcount, hbitmap, hfree⟩
      refine ⟨hcount, ?_, ?_⟩
      · intro g
        have hset := frameSetAddress_ne_zero_iff f i g
        have hpages : (∃ k, i + 4096 * k < reservedEnd ∧ (i + 4096 * k) / 4096 / 8 = g) ↔ _ :=
          @exists_page_step_iff (fun a => a < reservedEnd ∧ a / 4096 / 8 = g) i
        rw [hbitmap g, hset, hpages, or_assoc]
        simp only [hlt, true_and]
      · intro hle hword
        have hone : (frameSetAddress f i).framesFree = f.framesFree - 1 :=
          sub32_of_le (by omega) hword
        have hrest := hfree (by simp only [hone]; omega) (by simp only [hone]; omega)
        simp only [hone] at hrest
        omega
    · rw [frameSetupLoop, if_neg hlt] at h
      cases h
      -- no page is left to mark
      refine ⟨rfl, ?_, by omega⟩
      intro g
      constructor
      · exact Or.inl
      · rintro (hset | ⟨k, hk, _⟩)
        · exact hset
        · omega

/-- `frame_setup` returns whenever the reserved area ends at or below the last page. -/
theorem frameSetup_returns {fuel memSize reservedStart reservedEnd : Nat} (bitmap : Nat → UInt8)
    (hend : reservedEnd ≤ 0xFFFFF000) (hfuel : reservedEnd ≤ reservedStart + 4096 * fuel) :
    ∃ f, frameSetup (fuel + 1) memSize reservedStart reservedEnd bitmap = some f := by
  have hloop : ∀ (fuel i : Nat) (f : Frames), reservedEnd ≤ i + 4096 * fuel →
      ∃ f', frameSetupLoop (fuel + 1) i reservedEnd f = some f' := by
    intro fuel
    induction fuel with
    | zero =>
      intro i f hle
      exact ⟨f, by rw [frameSetupLoop, if_neg (by omega)]⟩
    | succ fuel ih =>
      intro i f hle
      rw [frameSetupLoop]
      split
      · apply ih
        rw [u32_of_lt (by omega)]
        omega
      · exact ⟨f, rfl⟩
  exact hloop fuel reservedStart _ hfuel

/-! ## The allocator under its callers -/

/-- The allocator with the addresses `frame_get` returned that were not freed since. -/
structure FrameState where
  frames : Frames
  out : List Nat

/-- A call that returned: `frame_get` with the address it gave, or `frame_free`. -/
inductive FrameCall where
  | get (addr : Nat)
  | free (addr : Nat)

/-- One call. `frame_get` hands out a frame unless `frames_free` is zero, when its `0` means that
there is none; `frame_free` is only given an address that is out. -/
inductive FrameStep : FrameState → FrameCall → FrameState → Prop where
  | get {s : FrameState} {fuel addr : Nat} {f : Frames} (hfree : s.frames.framesFree ≠ 0)
      (hget : frameGet fuel s.frames = some (addr, f)) : FrameStep s (.get addr) ⟨f, addr :: s.out⟩
  | getNone {s : FrameState} {fuel addr : Nat} {f : Frames} (hfree : s.frames.framesFree = 0)
      (hget : frameGet fuel s.frames = some (addr, f)) : FrameStep s (.get addr) ⟨f, s.out⟩
  | free {s : FrameState} {addr : Nat} (hout : addr ∈ s.out) :
      FrameStep s (.free addr) ⟨frameFree s.frames addr, s.out.erase addr⟩

/-- The byte of the bitmap that has the bit of the frame at `addr`. -/
def frameGroup (addr : Nat) : Nat := addr / 4096 / 8

/-- The frames handed out, as a pool whose groups are the bytes of the bitmap. -/
def FrameState.pool (reserved : Set Nat) (s : FrameState) : Pool Nat := ⟨reserved, s.out⟩

/-- The invariant of the allocator, with `reserved` the addresses it never hands out. -/
structure FrameInv (reserved : Set Nat) (s : FrameState) : Prop where
  exclusive : (s.pool reserved).Exclusive frameGroup
  /-- A byte is zero exactly when none of its eight frames is reserved or handed out. -/
  clear_iff : ∀ g, s.frames.physicalBitmap g = 0 ↔ (s.pool reserved).Idle frameGroup g
  /-- The byte of an owner's group has the owner's bit and no other. -/
  owner_bit : ∀ a ∈ s.out, s.frames.physicalBitmap (frameGroup a) = frameBit (a / 4096)
  aligned : ∀ a ∈ s.out, a % 4096 = 0
  below : ∀ a ∈ s.out, a / 4096 < s.frames.framesCount
  count_le : s.frames.framesCount ≤ 1048576

theorem frameSetup_inv {fuel memSize reservedStart reservedEnd : Nat} {f : Frames}
    (hmem : memSize < 4294967296) (hstart : reservedStart < 4294967296)
    (h : frameSetup fuel memSize reservedStart reservedEnd (fun _ => 0) = some f) :
    FrameInv (Reserved reservedStart reservedEnd) ⟨f, []⟩ := by
  rcases frameSetupLoop_spec hstart h with ⟨hcount, hbitmap, _⟩
  constructor
  · exact Pool.Exclusive.nil _
  · intro g
    -- at the start, a byte is set exactly if it has a reserved frame
    have hmarked : f.physicalBitmap g ≠ 0 ↔ ∃ k, reservedStart + 4096 * k < reservedEnd
        ∧ (reservedStart + 4096 * k) / 4096 / 8 = g := by
      simpa using hbitmap g
    constructor
    · intro hclear x hx
      refine ⟨?_, List.not_mem_nil⟩
      rintro ⟨k, hk, hframe⟩
      refine hmarked.mpr ⟨k, hk, ?_⟩ hclear
      rw [hframe]
      exact hx
    · intro hidle
      by_contra hset
      rcases hmarked.mp hset with ⟨k, hk, hg⟩
      exact (hidle _ hg).1 ⟨k, hk, rfl⟩
  · intro a ha
    cases ha
  · intro a ha
    cases ha
  · intro a ha
    cases ha
  · show f.framesCount ≤ 1048576
    rw [hcount]
    show memSize / 4096 ≤ 1048576
    omega

/-- What a `frame_get` with frames left hands out: an aligned address below `frames_count` frames,
of an idle group, whose bit becomes the byte of the group. -/
theorem FrameInv.get_spec {reserved : Set Nat} {s : FrameState} (hinv : FrameInv reserved s)
    (hfree : s.frames.framesFree ≠ 0) {fuel addr : Nat} {f : Frames}
    (h : frameGet fuel s.frames = some (addr, f)) :
    addr % 4096 = 0 ∧ addr / 4096 < s.frames.framesCount
      ∧ (s.pool reserved).Idle frameGroup (frameGroup addr)
      ∧ f.physicalBitmap
          = Function.update s.frames.physicalBitmap (frameGroup addr) (frameBit (addr / 4096))
      ∧ f.framesCount = s.frames.framesCount ∧ f.framesFree = sub32 s.frames.framesFree 1 := by
  rcases frameGet_spec hfree h with ⟨i, hlt, hclear, haddr, hbitmap, hcount, hfree'⟩
  have hle := hinv.count_le
  have hval : addr = i * 4096 := by rw [haddr, u32_of_lt (by omega)]
  have hframe : addr / 4096 = i := by omega
  have hgroup : frameGroup addr = i / 8 := by rw [frameGroup, hframe]
  rw [hframe, hgroup]
  exact ⟨by omega, hlt, (hinv.clear_iff _).mp hclear, hbitmap, hcount, hfree'⟩

/-- The state after a `frame_free` of an address that is out: the byte of its group is zero. -/
theorem FrameInv.free_spec {reserved : Set Nat} {s : FrameState} (hinv : FrameInv reserved s)
    {addr : Nat} (hout : addr ∈ s.out) :
    frameFree s.frames addr =
      { s.frames with
        physicalBitmap := Function.update s.frames.physicalBitmap (frameGroup addr) 0
        framesFree := u32 (s.frames.framesFree + 1) } := by
  have hbelow := hinv.below addr hout
  have hbit := hinv.owner_bit addr hout
  rw [frameGroup] at hbit
  rw [frameFree, frameUnsetAddress, frameUnset, if_neg (by omega), hbit, frameBit_clear]
  rfl

/-- A frame of an idle group is handed out, and its bit becomes the byte of the group. -/
theorem FrameInv.take {reserved : Set Nat} {s : FrameState} (hinv : FrameInv reserved s) {addr : Nat}
    {f : Frames} (halign : addr % 4096 = 0) (hbelow : addr / 4096 < s.frames.framesCount)
    (hidle : (s.pool reserved).Idle frameGroup (frameGroup addr))
    (hbitmap : f.physicalBitmap
      = Function.update s.frames.physicalBitmap (frameGroup addr) (frameBit (addr / 4096)))
    (hcount : f.framesCount = s.frames.framesCount) : FrameInv reserved ⟨f, addr :: s.out⟩ := by
  constructor
  · -- the group was idle, so the frame is its only owner
    exact hinv.exclusive.take hidle
  · intro g
    show f.physicalBitmap g = 0 ↔ ((s.pool reserved).take addr).Idle frameGroup g
    rw [Pool.idle_take_iff, ← hinv.clear_iff g, hbitmap]
    by_cases hg : g = frameGroup addr
    · subst hg
      simp [frameBit_ne_zero]
    · simp [hg]
  · intro a ha
    show f.physicalBitmap (frameGroup a) = frameBit (a / 4096)
    rw [hbitmap]
    rcases List.mem_cons.mp ha with rfl | ha
    · rw [Function.update_self]
    · have hne : frameGroup a ≠ frameGroup addr := fun heq => (hidle a heq).2 ha
      rw [Function.update_of_ne hne]
      exact hinv.owner_bit a ha
  · intro a ha
    rcases List.mem_cons.mp ha with rfl | ha
    · exact halign
    · exact hinv.aligned a ha
  · intro a ha
    show a / 4096 < f.framesCount
    rw [hcount]
    rcases List.mem_cons.mp ha with rfl | ha
    · exact hbelow
    · exact hinv.below a ha
  · show f.framesCount ≤ 1048576
    rw [hcount]
    exact hinv.count_le

/-- A frame that is handed out was idle, with its whole group. -/
theorem FrameInv.get {reserved : Set Nat} {s : FrameState} (hinv : FrameInv reserved s)
    (hfree : s.frames.framesFree ≠ 0) {fuel addr : Nat} {f : Frames}
    (hget : frameGet fuel s.frames = some (addr, f)) : FrameInv reserved ⟨f, addr :: s.out⟩ := by
  rcases hinv.get_spec hfree hget with ⟨halign, hbelow, hidle, hbitmap, hcount, _⟩
  exact hinv.take halign hbelow hidle hbitmap hcount

/-- A frame that is given back was the only one of its group. -/
theorem FrameInv.free {reserved : Set Nat} {s : FrameState} (hinv : FrameInv reserved s) {addr : Nat}
    (hout : addr ∈ s.out) : FrameInv reserved ⟨frameFree s.frames addr, s.out.erase addr⟩ := by
  rw [hinv.free_spec hout]
  constructor
  · exact hinv.exclusive.give
  · intro g
    show Function.update s.frames.physicalBitmap (frameGroup addr) 0 g = 0
      ↔ ((s.pool reserved).give addr).Idle frameGroup g
    rw [Pool.idle_give_iff hinv.exclusive hout, ← hinv.clear_iff g]
    by_cases hg : g = frameGroup addr
    · subst hg
      simp
    · simp [hg]
  · intro a ha
    have hmem : a ∈ s.out := List.mem_of_mem_erase ha
    have hne : frameGroup a ≠ frameGroup addr := by
      intro heq
      have hsame : a = addr := hinv.exclusive.eq_of_group_eq hmem hout heq
      subst hsame
      -- a frame is out once only
      exact hinv.exclusive.nodup.not_mem_erase ha
    show Function.update s.frames.physicalBitmap (frameGroup addr) 0 (frameGroup a) = _
    rw [Function.update_of_ne hne]
    exact hinv.owner_bit a hmem
  · intro a ha
    exact hinv.aligned a (List.mem_of_mem_erase ha)
  · intro a ha
    exact hinv.below a (List.mem_of_mem_erase ha)
  · exact hinv.count_le

/-- Every call keeps the invariant. -/
theorem FrameInv.step {reserved : Set Nat} {s s' : FrameState} {e : FrameCall}
    (hinv : FrameInv reserved s) (hstep : FrameStep s e s') : FrameInv reserved s' := by
  cases hstep with
  | getNone hfree hget =>
    rcases frameGet_none hfree hget with ⟨-, rfl⟩
    exact hinv
  | get hfree hget => exact hinv.get hfree hget
  | free hout => exact hinv.free hout

theorem FrameInv.run {reserved : Set Nat} {s₀ s : FrameState}
    {tr : List (Transition FrameState FrameCall)} (hinv : FrameInv reserved s₀)
    (hrun : Run FrameStep s₀ tr s) : FrameInv reserved s :=
  hrun.invariant hinv fun _ _ _ h hstep => h.step hstep

/-! ## Ownership

With `reserved_start` zero the reserved frames are the first `⌈reserved_end / 4096⌉`, and as long as
they fit into the memory `frames_free` never wraps. -/

theorem mem_reserved_zero_iff (reservedEnd addr : Nat) :
    addr ∈ Reserved 0 reservedEnd ↔ addr / 4096 < (reservedEnd + 4095) / 4096 := by
  constructor
  · rintro ⟨k, hk, hframe⟩
    omega
  · intro hlt
    exact ⟨addr / 4096, by omega, by omega⟩

/-- `frames_free` accounts for every frame that is neither reserved nor out. -/
def FrameCounted (reservedFrames count : Nat) (s : FrameState) : Prop :=
  s.frames.framesFree + reservedFrames + s.out.length = s.frames.framesCount
    ∧ s.frames.framesCount = count

theorem FrameCounted.step {reserved : Set Nat} {reservedFrames count : Nat} {s s' : FrameState}
    {e : FrameCall} (hinv : FrameInv reserved s) (hcount : FrameCounted reservedFrames count s)
    (hstep : FrameStep s e s') : FrameCounted reservedFrames count s' := by
  have hle := hinv.count_le
  rcases hcount with ⟨hsum, hn⟩
  cases hstep with
  | getNone hfree hget =>
    rcases frameGet_none hfree hget with ⟨-, rfl⟩
    exact ⟨hsum, hn⟩
  | get hfree hget =>
    rcases hinv.get_spec hfree hget with ⟨_, _, _, _, hcount', hfree'⟩
    -- `frames_free` is not 0, so that it does not wrap
    rw [sub32_of_le (by omega) (by omega)] at hfree'
    refine ⟨?_, hcount'.trans hn⟩
    rw [hcount', hfree', List.length_cons]
    omega
  | free hout =>
    have hlen := List.length_erase_of_mem hout
    have hpos := List.length_pos_of_mem hout
    rw [hinv.free_spec hout]
    refine ⟨?_, hn⟩
    show u32 (s.frames.framesFree + 1) + reservedFrames + (s.out.erase _).length
      = s.frames.framesCount
    rw [u32_of_lt (by omega), hlen]
    omega

/-- **Ownership.** From `frame_setup(mem_size, 0, reserved_end)` on a zeroed bitmap, through any run
of `frame_get` and of `frame_free` of addresses that are out: `frames_free` is the number of frames
less the reserved ones less those out, and every address other than zero that a `frame_get` of the
run returned was a multiple of 4096 below the end of memory, outside the reserved area, and not out
already. -/
theorem frame_ownership {fuel memSize reservedEnd : Nat} {f : Frames}
    (hmem : memSize < 4294967296) (hpos : 0 < reservedEnd)
    (hfit : (reservedEnd + 4095) / 4096 ≤ memSize / 4096)
    (hsetup : frameSetup fuel memSize 0 reservedEnd (fun _ => 0) = some f)
    {tr : List (Transition FrameState FrameCall)} {s : FrameState}
    (hrun : Run FrameStep ⟨f, []⟩ tr s) :
    s.frames.framesFree + (reservedEnd + 4095) / 4096 + s.out.length = s.frames.framesCount
      ∧ s.frames.framesCount = memSize / 4096
      ∧ ∀ τ ∈ tr, ∀ addr, τ.event = .get addr →
          (addr = 0 → τ.post.out = τ.pre.out)
            ∧ (addr ≠ 0 → τ.post.out = addr :: τ.pre.out
                ∧ addr % 4096 = 0 ∧ addr < memSize / 4096 * 4096
                ∧ reservedEnd ≤ addr ∧ addr ∉ τ.pre.out) := by
  have hinv : FrameInv (Reserved 0 reservedEnd) ⟨f, []⟩ := frameSetup_inv hmem (by decide) hsetup
  rcases frameSetupLoop_spec (by decide) hsetup with ⟨hcount, _, hfree⟩
  have hcounted : FrameCounted ((reservedEnd + 4095) / 4096) (memSize / 4096) ⟨f, []⟩ := by
    have hsum : f.framesFree + (reservedEnd - 0 + 4095) / 4096 = memSize / 4096 :=
      hfree hfit (show memSize / 4096 < 4294967296 by omega)
    have hn : f.framesCount = memSize / 4096 := hcount
    exact ⟨by rw [hn]; simpa using hsum, hn⟩
  have hboth : ∀ s e s', (FrameInv (Reserved 0 reservedEnd) s
      ∧ FrameCounted ((reservedEnd + 4095) / 4096) (memSize / 4096) s) → FrameStep s e s' →
      FrameInv (Reserved 0 reservedEnd) s'
        ∧ FrameCounted ((reservedEnd + 4095) / 4096) (memSize / 4096) s' :=
    fun _ _ _ h hstep => ⟨h.1.step hstep, h.2.step h.1 hstep⟩
  -- both hold in every state of the run, the one before each call included
  rcases (hrun.invariant ⟨hinv, hcounted⟩ hboth).2 with ⟨hsum, hn⟩
  refine ⟨hsum, hn, ?_⟩
  intro τ hτ addr hevent
  rcases hrun.pre_invariant ⟨hinv, hcounted⟩ hboth hτ with ⟨⟨hpre, hprecount⟩, hstep⟩
  rw [hevent] at hstep
  generalize τ.post = post at hstep ⊢
  cases hstep with
  | getNone hzero hget =>
    rcases frameGet_none hzero hget with ⟨rfl, rfl⟩
    exact ⟨fun _ => rfl, fun hne => absurd rfl hne⟩
  | get hsome hget =>
    rcases hpre.get_spec hsome hget with ⟨halign, hbelow, hidle, _⟩
    have hunreserved : ¬ addr / 4096 < (reservedEnd + 4095) / 4096 := by
      rw [← mem_reserved_zero_iff]
      exact (hidle addr rfl).1
    have hlimit : addr / 4096 < memSize / 4096 := by
      rw [← hprecount.2]
      exact hbelow
    exact ⟨by omega, fun _ => ⟨rfl, halign, by omega, by omega, (hidle addr rfl).2⟩⟩

/-- Sixteen frames, the first reserved. -/
def sixteenFrames : Frames where
  physicalBitmap := Function.update (fun _ => 0) 0 1
  framesCount := 16
  framesFree := 15
  frameIdx := 1

/-- The same frames once `frame_get` has given out frame 8: both groups have an owner. -/
def sixteenFramesOut : FrameState where
  frames :=
    { physicalBitmap := Function.update sixteenFrames.physicalBitmap 1 1
      framesCount := 16
      framesFree := 14
      frameIdx := 2 }
  out := [0x8000]

theorem sixteenFrames_setup :
    frameSetup 2 0x10000 0 0x1000 (fun _ => 0) = some sixteenFrames := rfl

theorem sixteenFrames_get : FrameStep ⟨sixteenFrames, []⟩ (.get 0x8000) sixteenFramesOut :=
  FrameStep.get (by decide) (show frameGet 1 sixteenFrames = _ from rfl)

theorem frame_ownership_sixteen : sixteenFramesOut.frames.framesFree + 1 + 1 = 16 :=
  (frame_ownership (by decide) (by decide) (by decide) sixteenFrames_setup
    (Run.snoc Run.nil sixteenFrames_get)).1

/-! ## Progress -/

/-- **Progress.** In every state that calls reach from `frame_setup`, with `frames_free` not zero,
`frame_get` returns a frame that is neither reserved nor out if and only if some group of eight
frames that starts below `frames_count` has no reserved and no handed-out frame. -/
theorem frameGet_progress_iff {fuel memSize reservedStart reservedEnd : Nat} {f : Frames}
    (hmem : memSize < 4294967296) (hstart : reservedStart < 4294967296)
    (hsetup : frameSetup fuel memSize reservedStart reservedEnd (fun _ => 0) = some f)
    {tr : List (Transition FrameState FrameCall)} {s : FrameState}
    (hrun : Run FrameStep ⟨f, []⟩ tr s) (hfree : 0 < s.frames.framesFree) :
    (∃ fuel addr f', frameGet fuel s.frames = some (addr, f')
        ∧ addr / 4096 < s.frames.framesCount
        ∧ addr ∉ Reserved reservedStart reservedEnd ∧ addr ∉ s.out)
      ↔ ∃ g, 8 * g < s.frames.framesCount
          ∧ (s.pool (Reserved reservedStart reservedEnd)).Idle frameGroup g := by
  have hinv := (frameSetup_inv hmem hstart hsetup).run hrun
  have hne : s.frames.framesFree ≠ 0 := Nat.pos_iff_ne_zero.mp hfree
  constructor
  · rintro ⟨fuel, addr, f', hget, _, _, _⟩
    rcases hinv.get_spec hne hget with ⟨_, hbelow, hidle, _⟩
    refine ⟨frameGroup addr, ?_, hidle⟩
    rw [frameGroup]
    omega
  · rintro ⟨g, hlt, hidle⟩
    have hclear : s.frames.physicalBitmap (8 * g / 8) = 0 := by
      rw [Nat.mul_div_cancel_left g (by decide)]
      exact (hinv.clear_iff g).mpr hidle
    -- the byte of an idle group is zero, and the search starts again from the first frame if need be
    rcases frameGet_of_clear hne hlt hclear with ⟨⟨addr, f'⟩, hget⟩
    rcases hinv.get_spec hne hget with ⟨_, hbelow, hown, _⟩
    exact ⟨2, addr, f', hget, hbelow, (hown addr rfl).1, (hown addr rfl).2⟩

theorem frameGet_progress_sixteen :
    ∃ fuel addr f', frameGet fuel sixteenFrames = some (addr, f') ∧ addr / 4096 < 16
      ∧ addr ∉ Reserved 0 0x1000 ∧ addr ∉ [] := by
  refine (frameGet_progress_iff (by decide) (by decide) sixteenFrames_setup Run.nil
    (by decide)).mpr ⟨1, by decide, ?_⟩
  intro x hx
  rw [frameGroup] at hx
  refine ⟨?_, List.not_mem_nil⟩
  show x ∉ Reserved 0 0x1000
  rw [mem_reserved_zero_iff]
  omega

/-- With one frame handed out of sixteen, fourteen are free by the count, and `frame_get` never
returns. -/
theorem frameGet_diverges_sixteen :
    frameSetup 2 0x10000 0 0x1000 (fun _ => 0) = some sixteenFrames
      ∧ Run FrameStep ⟨sixteenFrames, []⟩
          [⟨⟨sixteenFrames, []⟩, .get 0x8000, sixteenFramesOut⟩] sixteenFramesOut
      ∧ 0 < sixteenFramesOut.frames.framesFree
      ∧ ∀ fuel, frameGet fuel sixteenFramesOut.frames = none := by
  refine ⟨sixteenFrames_setup, Run.snoc Run.nil sixteenFrames_get, by decide, ?_⟩
  refine frameGet_diverges (by decide) ?_
  show ∀ i < 16, sixteenFramesOut.frames.physicalBitmap (i / 8) ≠ 0
  decide

end DiyOS
