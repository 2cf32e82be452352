import DiyOS.Heap.Integrity
import DiyOS.Paging.PageUpper

/-!
# The boot modules (`mm`)

`mm` looks for the end of the modules: the heap starts behind it, and the frames below it are reserved.
The loop over the module array never moves its pointer, so that only the first module counts.

* **`mmHeapStart_eq`** — where the heap starts.
* **`mm_frameInv`** — the allocator after `mm`: the frames below the heap's start are reserved, and none
  of them is out.
* **`modules_protected_iff`** — all modules are protected exactly if each ends below the kernel or not
  behind the first module.
-/

namespace DiyOS

open Word PageTable

/-- The functions of `frame.c` and `page.c`. -/
def kernelPaging : Paging PageState where
  frameSetup memSize reservedStart reservedEnd s :=
    match frameSetup 0x100001 memSize reservedStart reservedEnd s.frames.physicalBitmap with
    | none => none
    | some f => some { s with frames := f }
  pageMap := pageMap
  pageMapUntil := pageMapUntil 0x100001

theorem kernelPaging_frameSetup {memSize reservedStart reservedEnd : Nat} {s : PageState} {f : Frames}
    (h : frameSetup 0x100001 memSize reservedStart reservedEnd s.frames.physicalBitmap = some f) :
    kernelPaging.frameSetup memSize reservedStart reservedEnd s = some { s with frames := f } := by
  unfold kernelPaging
  dsimp only
  rw [h]

/-- The allocator with the frames that are out. -/
def PageState.alloc (s : PageState) : FrameState := ⟨s.frames, s.got.filter (· ≠ 0)⟩

/-! ## The calls of `mm`

`mm` reserves memory up to the end of the first module, maps it, and puts the heap behind it. -/

section

variable {σ : Type} {pg : Paging σ}

theorem mm_paging {fuel kernelVaddrEnd : Nat} {mb : MultibootInfo} {h₀ h : Heap σ}
    (hmm : mm pg fuel kernelVaddrEnd mb h₀ = .ok h) :
    mmPages pg fuel (u32 (mb.memUpper * 1024)) (mmReservedEnd kernelVaddrEnd mb) h₀.paging = .ok h.paging
      ∧ h.rootMblock = mmHeapStart kernelVaddrEnd mb := by
  unfold mm at hmm
  split at hmm
  · cases hmm
  · dsimp only at hmm
    split at hmm
    · cases hmm
    · next p hpages =>
      rw [← Except.ok.inj hmm]
      exact ⟨hpages, rfl⟩

theorem mmPages_cases {fuel memSize reservedEnd : Nat} {p p' : σ}
    (hcall : mmPages pg fuel memSize reservedEnd p = .ok p') :
    ∃ p₁, pg.frameSetup memSize 0 reservedEnd p = some p₁
      ∧ mapKernel pg fuel 0x100000 (u32 (pageBase reservedEnd + 0x1000)) kernelBase p₁ = .ok p' := by
  unfold mmPages at hcall
  split at hcall
  · cases hcall
  · next p₁ hsetup => exact ⟨p₁, hsetup, hcall⟩

theorem mmPages_of {fuel memSize reservedEnd : Nat} {p p₁ p' : σ}
    (hsetup : pg.frameSetup memSize 0 reservedEnd p = some p₁)
    (hmap : mapKernel pg fuel 0x100000 (u32 (pageBase reservedEnd + 0x1000)) kernelBase p₁ = .ok p') :
    mmPages pg fuel memSize reservedEnd p = .ok p' := by
  unfold mmPages
  rw [hsetup]
  exact hmap

/-- What `page_map` keeps, the loop over the kernel's pages keeps. -/
theorem mapKernel_invariant {I : σ → Prop}
    (hpres : ∀ pAddr vAddr p p', I p → pg.pageMap pAddr vAddr p = some p' → I p')
    {fuel pAddr pAddrMax vAddr : Nat} {p p' : σ} (hp : I p)
    (hcall : mapKernel pg fuel pAddr pAddrMax vAddr p = .ok p') : I p' := by
  induction fuel generalizing pAddr vAddr p with
  | zero => cases hcall
  | succ fuel ih =>
    rw [mapKernel] at hcall
    split at hcall
    · split at hcall
      · cases hcall
      · next p₁ hmap => exact ih (hpres _ _ _ _ hp hmap) hcall
    · rw [← Except.ok.inj hcall]
      exact hp

end

/-! ## The protection of the modules

What the loader promises of the modules, and what should be true of their frames when `mm` is done. -/

/-- The frames of a module are reserved, and the heap starts behind it. -/
def ModuleProtected (kernelVaddrEnd : Nat) (mb : MultibootInfo) (h : Heap PageState)
    (mod : MultibootModule) : Prop :=
  (∀ a, mod.modStart ≤ a → a < mod.modEnd → a ∈ Reserved 0 (mmReservedEnd kernelVaddrEnd mb))
    ∧ kernelBase + mod.modEnd ≤ h.rootMblock + 0x100000

/-- What is out of the allocator, after any calls of `frame_get` and `frame_free`, is no frame of the
module; and what `malloc` gives lies behind it, if the heap has room for a first block. -/
def NeverHandedOut (h : Heap PageState) (mod : MultibootModule) : Prop :=
  (∀ tr (s : FrameState), Run FrameStep h.paging.alloc tr s →
      ∀ addr ∈ s.out, ∀ a, mod.modStart ≤ a → a < mod.modEnd → a / 4096 ≠ addr / 4096)
    ∧ (h.rootMblock + 20 + 1 < 4294967296 →
      ∀ tr (s : HeapState PageState), Run (HeapStep kernelPaging) ⟨h, []⟩ tr s →
        ∀ b ∈ s.given, kernelBase + mod.modEnd ≤ b.addr + 0x100000)

/-- Each module ends below the kernel, or not behind the first module, which ends below 1 GB. -/
def ModulesCovered (kernelVaddrEnd : Nat) (mb : MultibootInfo) : Prop :=
  ∀ i < mb.modsCount, kernelBase + (mb.mods i).modEnd ≤ kernelVaddrEnd + 0x100000
    ∨ (mb.mods i).modEnd ≤ (mb.mods 0).modEnd ∧ (mb.mods 0).modEnd < 0x40100000

section

variable {kernelVaddrEnd fuel : Nat} {mb : MultibootInfo} {h₀ h : Heap PageState}

/-! ## The start of the heap

The loop that looks for the end of the modules compares with the first module in every turn. -/

/-- Every turn of the loop looks at the first module. -/
theorem mmFindHeap_eq (mb : MultibootInfo) (n heap : Nat) : mmFindHeap mb n heap
    = if n = 0 then heap else max heap (sub32 (u32 (kernelBase + (mb.mods 0).modEnd)) 0x100000) := by
  induction n generalizing heap with
  | zero => rfl
  | succ n ih =>
    unfold mmFindHeap
    dsimp only
    rw [ih, if_neg (Nat.succ_ne_zero n)]
    generalize sub32 (u32 (kernelBase + (mb.mods 0).modEnd)) 0x100000 = modEnd
    by_cases hn : n = 0
    · rw [if_pos hn]
      split <;> omega
    · rw [if_neg hn]
      split <;> omega

theorem mmHeapStart_eq (mb : MultibootInfo) (kernelVaddrEnd : Nat) : mmHeapStart kernelVaddrEnd mb
    = if mb.modsCount = 0 then kernelVaddrEnd
      else max kernelVaddrEnd (sub32 (u32 (kernelBase + (mb.mods 0).modEnd)) 0x100000) :=
  mmFindHeap_eq mb mb.modsCount kernelVaddrEnd

/-- The end of the first module as `mm` computes it. -/
theorem modEnd_cases {modEnd : Nat} (hlo : 0x100000 ≤ modEnd) (hhi : modEnd < 4294967296) :
    modEnd < 0x40100000
        ∧ sub32 (u32 (kernelBase + modEnd)) 0x100000 + 0x100000 = kernelBase + modEnd
      ∨ 0x40100000 ≤ modEnd ∧ sub32 (u32 (kernelBase + modEnd)) 0x100000 < kernelBase := by
  have hbase : kernelBase = 0xC0000000 := rfl
  unfold sub32 u32
  omega

/-- The heap starts behind the modules if and only if they are covered. -/
theorem modulesCovered_iff (hkernel : kernelBase ≤ kernelVaddrEnd)
    (hmods : ∀ i < mb.modsCount, 0x100000 ≤ (mb.mods i).modEnd ∧ (mb.mods i).modEnd < 4294967296) :
    (∀ i < mb.modsCount, kernelBase + (mb.mods i).modEnd ≤ mmHeapStart kernelVaddrEnd mb + 0x100000)
      ↔ ModulesCovered kernelVaddrEnd mb := by
  unfold ModulesCovered
  apply forall₂_congr
  intro i hi
  have hpos : 0 < mb.modsCount := by omega
  have hfirst := modEnd_cases (hmods 0 hpos).1 (hmods 0 hpos).2
  have hmod := hmods i hi
  rw [mmHeapStart_eq, if_neg (by omega)]
  generalize sub32 (u32 (kernelBase + (mb.mods 0).modEnd)) 0x100000 = start at hfirst ⊢
  have hbase : kernelBase = 0xC0000000 := rfl
  omega

/-! ## The allocator after `mm`

The frames below the reserved end are not handed out; `page_map` takes frames for tables, and those lie behind. -/

/-- `frame_get`, as the allocator sees it: where frame 0 is reserved, it returns 0 only if there is
nothing left. -/
theorem frameStep_of_frameGet {reserved : Set Nat} {s s' : PageState} {addr : Nat}
    (hinv : FrameInv reserved s.alloc) (hzero : 0 ∈ reserved) (hget : s.frameGet = some (addr, s')) :
    FrameStep s.alloc (.get addr) s'.alloc := by
  unfold PageState.frameGet at hget
  cases hframe : frameGet 2 s.frames with
  | none =>
    rw [hframe] at hget
    cases hget
  | some r =>
    rw [hframe] at hget
    rcases Prod.mk.inj (Option.some.inj hget) with ⟨rfl, rfl⟩
    have hcall : frameGet 2 s.alloc.frames = some (r.1, r.2) := hframe
    by_cases hfree : s.frames.framesFree = 0
    · have hnone := FrameStep.getNone hfree hcall
      have haddr : r.1 = 0 := (frameGet_none hfree hframe).1
      unfold PageState.alloc at hnone ⊢
      simp only [haddr, List.filter_cons] at hnone ⊢
      exact hnone
    · have hsome := FrameStep.get hfree hcall
      have hne : r.1 ≠ 0 := by
        intro haddr
        rcases hinv.get_spec hfree hcall with ⟨_, _, hidle, _⟩
        rw [haddr] at hidle
        exact (hidle 0 rfl).1 hzero
      unfold PageState.alloc at hsome ⊢
      simp only [List.filter_cons, hne, ne_eq, not_false_eq_true, decide_true, if_true] at hsome ⊢
      exact hsome

theorem pageMap_frameInv {reserved : Set Nat} {s s' : PageState} {pAddr v : Nat}
    (hinv : FrameInv reserved s.alloc) (hzero : 0 ∈ reserved) (hcall : pageMap pAddr v s = some s') :
    FrameInv reserved s'.alloc := by
  unfold pageMap at hcall
  dsimp only at hcall
  split at hcall
  · unfold newTable at hcall
    cases hget : s.frameGet with
    | none =>
      rw [hget] at hcall
      cases hcall
    | some r =>
      rw [hget] at hcall
      have hstep : FrameStep s.alloc (.get r.1) r.2.alloc := frameStep_of_frameGet hinv hzero hget
      rw [← Option.some.inj hcall]
      exact hinv.step hstep
  · rw [← Option.some.inj hcall]
    exact hinv

/-- The allocator after `frame_setup`. -/
theorem setup_frameInv {memSize reservedEnd : Nat} {s s' : PageState} (hmem : memSize < 4294967296)
    (hbitmap : s.frames.physicalBitmap = fun _ => 0) (hgot : s.got = [])
    (hcall : kernelPaging.frameSetup memSize 0 reservedEnd s = some s') :
    FrameInv (Reserved 0 reservedEnd) s'.alloc := by
  unfold kernelPaging at hcall
  dsimp only at hcall
  rw [hbitmap] at hcall
  rcases hsetup : frameSetup 0x100001 memSize 0 reservedEnd fun _ => 0 with _ | f
  · rw [hsetup] at hcall
    cases hcall
  · rw [hsetup] at hcall
    have hinv := frameSetup_inv hmem (by decide) hsetup
    rw [← Option.some.inj hcall]
    unfold PageState.alloc
    rw [hgot]
    exact hinv

/-- **The allocator after `mm`**: what lies below the heap's start is reserved. -/
theorem mm_frameInv (hbitmap : h₀.paging.frames.physicalBitmap = fun _ => 0) (hgot : h₀.paging.got = [])
    (hpos : 0 < mmReservedEnd kernelVaddrEnd mb)
    (hmm : mm kernelPaging fuel kernelVaddrEnd mb h₀ = .ok h) :
    FrameInv (Reserved 0 (mmReservedEnd kernelVaddrEnd mb)) h.paging.alloc := by
  rcases mmPages_cases (mm_paging hmm).1 with ⟨p, hsetup, hmap⟩
  have hzero : 0 ∈ Reserved 0 (mmReservedEnd kernelVaddrEnd mb) := ⟨0, by omega, rfl⟩
  have hstart : FrameInv (Reserved 0 (mmReservedEnd kernelVaddrEnd mb)) p.alloc :=
    setup_frameInv (u32_lt _) hbitmap hgot hsetup
  refine @mapKernel_invariant _ kernelPaging
    (fun p => FrameInv (Reserved 0 (mmReservedEnd kernelVaddrEnd mb)) p.alloc) ?_ _ _ _ _ _ _ hstart hmap
  exact fun _ _ _ _ hinv hcall => pageMap_frameInv hinv hzero hcall

/-! ## Protection

A module is protected if it ends below the end that was reserved. -/

theorem mmReservedEnd_eq (hkernel : kernelBase ≤ kernelVaddrEnd) (hlt : kernelVaddrEnd < 4294967296) :
    mmReservedEnd kernelVaddrEnd mb + kernelBase = mmHeapStart kernelVaddrEnd mb + 0x100000 := by
  have hbase : kernelBase = 0xC0000000 := rfl
  have hge : kernelVaddrEnd ≤ mmHeapStart kernelVaddrEnd mb := mmFindHeap_ge mb _ _
  have hword : mmHeapStart kernelVaddrEnd mb < 4294967296 := by
    have hend := u32_lt (u32 (kernelBase + (mb.mods 0).modEnd) + (4294967296 - u32 0x100000))
    rw [mmHeapStart_eq]
    unfold sub32
    split <;> omega
  unfold mmReservedEnd
  rw [sub32_of_le (by omega) hword, u32_of_lt (by omega)]
  omega

/-- The blocks that `malloc` gives lie behind the start of the heap. -/
theorem given_ge_root (hroot : mmHeapStart kernelVaddrEnd mb + 20 + 1 < 4294967296)
    (hmm : mm kernelPaging fuel kernelVaddrEnd mb h₀ = .ok h)
    {tr : List (Transition (HeapState PageState) HeapEvent)} {s : HeapState PageState}
    (hrun : Run (HeapStep kernelPaging) ⟨h, []⟩ tr s) :
    ∀ b ∈ s.given, mmHeapStart kernelVaddrEnd mb ≤ b.addr := by
  have hinv : HeapInv (rootBlock kernelVaddrEnd mb) s :=
    hrun.invariant (mm_inv hroot hmm) fun _ _ _ hpre hstep => hpre.step hstep
  have hstart : s.heap.rootMblock = mmHeapStart kernelVaddrEnd mb := by
    have hheader : (rootBlock kernelVaddrEnd mb).header = s.heap.rootMblock := hinv.tiles.1
    rw [← hheader]
    exact Nat.add_sub_cancel _ 20
  intro b hb
  have hlo := (hinv.bounds (List.mem_cons_of_mem _ hb)).1
  have haddr := hinv.addr_eq b (List.mem_cons_of_mem _ hb)
  omega

/-- **Boot modules.** For every array of modules, each above 1 MB, and any kernel: after `mm` the frames
of all modules are reserved, the heap starts behind all of them, and none of their frames and addresses is
handed out later, if and only if each module ends below the kernel or not behind the first module. -/
theorem modules_protected_iff (hkernel : kernelBase ≤ kernelVaddrEnd) (hlt : kernelVaddrEnd < 4294967296)
    (hmods : ∀ i < mb.modsCount, 0x100000 ≤ (mb.mods i).modStart
      ∧ (mb.mods i).modStart ≤ (mb.mods i).modEnd ∧ (mb.mods i).modEnd < 4294967296)
    (hbitmap : h₀.paging.frames.physicalBitmap = fun _ => 0) (hgot : h₀.paging.got = [])
    (hmm : mm kernelPaging fuel kernelVaddrEnd mb h₀ = .ok h) :
    (∀ i < mb.modsCount, ModuleProtected kernelVaddrEnd mb h (mb.mods i)
        ∧ NeverHandedOut h (mb.mods i))
      ↔ ModulesCovered kernelVaddrEnd mb := by
  have hbase : kernelBase = 0xC0000000 := rfl
  have hroot := (mm_paging hmm).2
  have hend : mmReservedEnd kernelVaddrEnd mb + kernelBase = mmHeapStart kernelVaddrEnd mb + 0x100000 :=
    mmReservedEnd_eq hkernel hlt
  have hge : kernelVaddrEnd ≤ mmHeapStart kernelVaddrEnd mb := mmFindHeap_ge mb _ _
  have hends : ∀ i < mb.modsCount, 0x100000 ≤ (mb.mods i).modEnd ∧ (mb.mods i).modEnd < 4294967296 :=
    fun i hi => ⟨Nat.le_trans (hmods i hi).1 (hmods i hi).2.1, (hmods i hi).2.2⟩
  rw [← modulesCovered_iff hkernel hends]
  constructor
  -- a module that is protected lies below the heap
  · intro hall i hi
    rw [← hroot]
    exact (hall i hi).1.2
  -- what lies below the reserved end is not handed out, by the invariant of the allocator
  · intro hall i hi
    have hbehind := hall i hi
    have hreserved : ∀ a, (mb.mods i).modStart ≤ a → a < (mb.mods i).modEnd →
        a ∈ Reserved 0 (mmReservedEnd kernelVaddrEnd mb) := by
      intro a _ ha
      rw [mem_reserved_zero_iff]
      omega
    refine ⟨⟨hreserved, by rw [hroot]; exact hbehind⟩, ?_, ?_⟩
    · intro tr s hrun addr haddr a hlo hhi heq
      have hinv := (mm_frameInv hbitmap hgot (by omega) hmm).run hrun
      apply hinv.exclusive.unreserved addr haddr a (hreserved a hlo hhi)
      rw [frameGroup, frameGroup, heq]
    · intro hfirst tr s hrun b hb
      rw [hroot] at hfirst
      have hblock := given_ge_root hfirst hmm hrun b hb
      omega

end

/-! ## Two modules

The second one ends behind the first. -/

/-- The start of `mm`: the pages of `start`, and a bitmap of zeros. -/
def startHeap : Heap PageState :=
  ⟨fun _ => 0, 0, 0, 0, 0, { startPages 0 with frames := ⟨fun _ => 0, 0, 0, 0⟩ }⟩

/-- The kernel's first 4 MB are present by the table at `0x2000`. The directory has no table for what lies
behind them, and low memory is zero. -/
structure FirstTable (f : Frames) (p : PageState) : Prop where
  ok : PagingOk p
  cr3_eq : p.cr3 = 0x1000
  table_eq : p.table 768 = 0x2000
  frames_eq : p.frames = f
  next : p.directoryEntry 769 = 0
  low : ∀ j < 1024, entry p.mem 0 j = 0
  present : ∀ a, kernelBase ≤ a → a < 0xC0400000 → p.Present a

/-- The first table gets a frame. -/
theorem startPages_first {f : Frames} (hcount : f.framesCount ≤ 1048576) (htaken : f.physicalBitmap 0 ≠ 0) :
    FirstTable f { startPages 0 with frames := f } := by
  have hstart := startPages_ok 0
  have hzero : ∀ g, sixteenFrames.physicalBitmap g ≠ 0 → f.physicalBitmap g ≠ 0 := by
    intro g hg
    rcases eq_or_ne g 0 with rfl | hne
    · exact htaken
    · have hclear : sixteenFrames.physicalBitmap g = 0 := by simp [sixteenFrames, hne]
      exact absurd hclear hg
  refine ⟨⟨hstart.cr3_lt, hstart.table_of_present, hstart.distinct, hstart.apart,
    hzero _ hstart.taken_pd, fun i hi htable => hzero _ (hstart.taken_table i hi htable), hcount⟩,
    rfl, ?_, rfl, startPages_directory 0 (by decide), ?_, ?_⟩
  · show (startPages 0).table 768 = 0x2000
    rw [PageState.table, startPages_directory 0 (by decide)]
    decide
  · intro j hj
    exact (startPages_low 0 hj).trans (Nat.zero_mul _)
  · intro a hbase hlt
    have hslot : directorySlot a = 768 := by
      unfold directorySlot kernelBase at *
      omega
    exact (startPages_entry 0 hbase (Nat.lt_trans hlt (by decide))).1 hslot

/-- Mapping a page of those 4 MB leaves everything else. -/
theorem FirstTable.pageMap {f : Frames} {p : PageState} (h : FirstTable f p) {pAddr v : Nat}
    (hp : pAddr < 4294967296) (hslot : directorySlot v = 768) :
    ∃ p', DiyOS.pageMap pAddr v p = some p' ∧ FirstTable f p' := by
  have hv : v < 4294967296 := by
    unfold directorySlot at hslot
    omega
  have hpd : p.pd = 0x1000 := by
    rw [PageState.pd, h.cr3_eq]
    decide
  have htable : p.table (directorySlot v) = 0x2000 := by
    rw [hslot]
    exact h.table_eq
  have hgets : GetsTable p v 0x2000 := ⟨by decide, Or.inl htable⟩
  obtain ⟨p', d, hcall, hmap⟩ := h.ok.pageMap hp hv hgets
  -- no table is missing, so that the allocator is not called
  have hsame : mapInTable pAddr v p = p' :=
    Option.some.inj ((pageMap_of_table (by rw [htable]; decide)).symm.trans hcall)
  have hpd' : p'.pd = p.pd := congrArg pageBase hmap.cr3_eq
  refine ⟨p', hcall, hmap.ok h.ok hv hgets, hmap.cr3_eq.trans h.cr3_eq, ?_, ?_, ?_, ?_, ?_⟩
  · rw [hmap.table (by decide), hslot, if_pos rfl]
  · rw [← hsame]
    exact h.frames_eq
  · have hother := hmap.maps.directory_other 769 (by decide) (by rw [hslot]; decide)
    unfold PageState.directoryEntry
    rw [hpd', hother]
    exact h.next
  · intro j hj
    rw [hmap.maps.elsewhere 0 j (by decide) (by rw [hpd]; decide) (by decide) hj]
    exact h.low j hj
  · intro a hbase hlt
    exact (hmap.present h.ok hv hgets).2 a (Nat.lt_trans hlt (by decide)) (h.present a hbase hlt)

/-- A kernel with less than 4 MB of modules: `mm` needs no new table. -/
theorem startHeap_pages {kernelVaddrEnd : Nat} {mb : MultibootInfo} (hkernel : kernelVaddrEnd ≠ 0)
    (hpos : 0 < mmReservedEnd kernelVaddrEnd mb) (hend : mmReservedEnd kernelVaddrEnd mb < 0x4FF000) :
    ∃ h f, mm kernelPaging 0x1001 kernelVaddrEnd mb startHeap = .ok h
      ∧ frameSetup 0x100001 (u32 (mb.memUpper * 1024)) 0 (mmReservedEnd kernelVaddrEnd mb) (fun _ => 0)
        = some f
      ∧ FirstTable f h.paging := by
  rcases @frameSetup_returns 0x100000 (u32 (mb.memUpper * 1024)) 0 (mmReservedEnd kernelVaddrEnd mb)
    (fun _ => 0) (by omega) (by omega) with ⟨f, hsetup⟩
  rw [show 0x100000 + 1 = 0x100001 from rfl] at hsetup
  rcases frameSetupLoop_spec (by decide) hsetup with ⟨hcount, hbitmap, _⟩
  have htaken : f.physicalBitmap 0 ≠ 0 := (hbitmap 0).mpr (Or.inr ⟨0, by omega, rfl⟩)
  have hframes : f.framesCount ≤ 1048576 := by
    have heq : f.framesCount = u32 (mb.memUpper * 1024) / 4096 := hcount
    have hword := u32_lt (mb.memUpper * 1024)
    omega
  -- every page goes to the table of entry 768
  let I : Nat → Nat → PageState → Prop := fun pAddr vAddr p =>
    FirstTable f p ∧ vAddr + 0x100000 = pAddr + kernelBase ∧ 0x100000 ≤ pAddr
  have hbase : kernelBase = 0xC0000000 := rfl
  have hmax : u32 (pageBase (mmReservedEnd kernelVaddrEnd mb) + 0x1000) ≤ 0x4FF000 := by
    rw [pageBase_eq (by omega), u32_of_lt (by omega)]
    omega
  have hturn : ∀ pAddr vAddr p, pAddr < u32 (pageBase (mmReservedEnd kernelVaddrEnd mb) + 0x1000) →
      I pAddr vAddr p → ∃ p', kernelPaging.pageMap pAddr vAddr p = some p'
        ∧ I (u32 (pAddr + 0x1000)) (u32 (vAddr + 0x1000)) p' := by
    rintro pAddr vAddr p hlt ⟨hp, haddr, hlo⟩
    have hslot : directorySlot vAddr = 768 := by
      unfold directorySlot
      omega
    obtain ⟨p', hcall, hp'⟩ := hp.pageMap (show pAddr < 4294967296 by omega) hslot
    refine ⟨p', hcall, hp', ?_, ?_⟩
    · rw [u32_of_lt (by omega), u32_of_lt (by omega)]
      omega
    · rw [u32_of_lt (by omega)]
      omega
  have hinit : I 0x100000 kernelBase { startPages 0 with frames := f } := by
    refine ⟨startPages_first hframes htaken, Nat.add_comm _ _, ?_⟩
    decide
  have hfuel : u32 (pageBase (mmReservedEnd kernelVaddrEnd mb) + 0x1000) ≤ 0x100000 + 0x1000 * 0x1000 := by
    omega
  rcases mapKernel_returns hturn (by omega) 0x1000 0x100000 kernelBase _ hinit hfuel with
    ⟨p', hpages, _, _, hp', _⟩
  rw [show 0x1000 + 1 = 0x1001 from rfl] at hpages
  have hcall := kernelPaging_frameSetup (s := startHeap.paging) hsetup
  have hall := mmPages_of hcall hpages
  obtain ⟨h, hmm⟩ := @mm_of_pages _ _ kernelVaddrEnd 0x1001 mb startHeap hkernel p' hall
  have hpaging : Except.ok (ε := Halt) p' = .ok h.paging := hall.symm.trans (mm_paging hmm).1
  exact ⟨h, f, hmm, hsetup, Except.ok.inj hpaging ▸ hp'⟩

theorem startHeap_mm {kernelVaddrEnd : Nat} {mb : MultibootInfo} (hkernel : kernelVaddrEnd ≠ 0)
    (hpos : 0 < mmReservedEnd kernelVaddrEnd mb) (hend : mmReservedEnd kernelVaddrEnd mb < 0x4FF000) :
    ∃ h, mm kernelPaging 0x1001 kernelVaddrEnd mb startHeap = .ok h := by
  obtain ⟨h, _, hmm, _⟩ := startHeap_pages hkernel hpos hend
  exact ⟨h, hmm⟩

def twoModules (first second : MultibootModule) : MultibootInfo :=
  ⟨0x8000, 2, fun i => if i = 0 then first else second⟩

/-- The first module ends last: both are protected. -/
theorem modules_protected_first :
    ∃ h, mm kernelPaging 0x1001 0xC0010000 (twoModules ⟨0x200000, 0x300000⟩ ⟨0x150000, 0x200000⟩) startHeap
        = .ok h
      ∧ ModuleProtected 0xC0010000 (twoModules ⟨0x200000, 0x300000⟩ ⟨0x150000, 0x200000⟩) h
        ⟨0x150000, 0x200000⟩
      ∧ NeverHandedOut h ⟨0x150000, 0x200000⟩ := by
  have hend : mmReservedEnd 0xC0010000 (twoModules ⟨0x200000, 0x300000⟩ ⟨0x150000, 0x200000⟩) = 0x300000 := by
    decide
  rcases @startHeap_mm 0xC0010000 (twoModules ⟨0x200000, 0x300000⟩ ⟨0x150000, 0x200000⟩) (by decide)
    (by rw [hend]; decide) (by rw [hend]; decide) with ⟨h, hmm⟩
  refine ⟨h, hmm, ?_⟩
  refine (modules_protected_iff (by decide) (by decide) ?_ rfl rfl hmm).mpr ?_ 1 (by decide)
  · show ∀ i < 2, _
    decide
  · show ∀ i < 2, _
    decide

/-- The second one does: its frames are not reserved, and the heap starts within it. -/
theorem second_module_unprotected :
    ∃ h, mm kernelPaging 0x1001 0xC0010000 (twoModules ⟨0x150000, 0x200000⟩ ⟨0x200000, 0x300000⟩) startHeap
        = .ok h
      ∧ 0x2FF000 ∉ Reserved 0
        (mmReservedEnd 0xC0010000 (twoModules ⟨0x150000, 0x200000⟩ ⟨0x200000, 0x300000⟩))
      ∧ h.rootMblock = 0xC0100000 ∧ h.rootMblock + 0x100000 < kernelBase + 0x300000 := by
  have hend : mmReservedEnd 0xC0010000 (twoModules ⟨0x150000, 0x200000⟩ ⟨0x200000, 0x300000⟩) = 0x200000 := by
    decide
  rcases @startHeap_mm 0xC0010000 (twoModules ⟨0x150000, 0x200000⟩ ⟨0x200000, 0x300000⟩) (by decide)
    (by rw [hend]; decide) (by rw [hend]; decide) with ⟨h, hmm⟩
  have hroot : h.rootMblock = 0xC0100000 := (mm_paging hmm).2.trans (by decide)
  refine ⟨h, hmm, ?_, hroot, ?_⟩
  · rw [hend, mem_reserved_zero_iff]
    decide
  · rw [hroot]
    decide

end DiyOS
