import DiyOS.Heap.Modules

/-!
# The limits of the kernel heap

`malloc` computes the end of a new block modulo `2 ^ 32`, and takes the block even where
`page_map_until` has run out of frames: its test for that is commented out.

* **`malloc_appends`** — for every size but 0, `malloc` appends a block if the paging returns.
* **`malloc_sound_iff`** — the block is one that `malloc_top` and its address describe exactly if it ends
  below `2 ^ 32`.
* **`out_of_memory_unreported`** — no call reports that the frames have run out.
-/

namespace DiyOS

open Word PageTable

/-! ## What `malloc` leaves for any size -/

section

variable {σ : Type} {pg : Paging σ} {root : Block} {s : HeapState σ}

/-- `malloc_top` and the fields of the new header, modulo `2 ^ 32`. -/
theorem appendBlock_words {size : Nat} {h : Heap σ} (hsize : size < 4294967296)
    (hlast : h.lastBlock + 20 ≤ h.mallocTop) :
    ∃ m, appendBlock size h = (u32 (h.mallocTop + 20),
      { h with mem := m, lastBlock := h.mallocTop, mallocTop := u32 (u32 (h.mallocTop + 20) + size) }) := by
  have haddr : u32 (h.mallocTop + 20) < 4294967296 := u32_lt _
  refine ⟨(initMblock h.mem h.mallocTop size).writeWord (h.lastBlock + 16) h.mallocTop, ?_⟩
  unfold appendBlock initMblock mblockAddr mblockSize
  simp (disch := omega) only [Mem.readWord_writeWord_of_disjoint, Mem.readWord_writeWord]

/-- The pages that a call asks for, if it asks for any. -/
def NeedsPages (h : Heap σ) (size : Nat) : Prop := u32 (h.mallocTop + size + 20) > h.heap

instance (h : Heap σ) (size : Nat) : Decidable (NeedsPages h size) := inferInstanceAs (Decidable (_ > _))

/-- The limit and the pages behind that test. -/
def PagesFor (pg : Paging σ) (h : Heap σ) (size limit : Nat) (p : σ) : Prop :=
  if NeedsPages h size then pg.pageMapUntil (u32 (h.mallocTop + size)) h.paging = some (limit, p)
  else limit = h.heap ∧ p = h.paging

theorem exists_pagesFor {h : Heap σ} {size : Nat} (hpages : NeedsPages h size →
    ∃ r, pg.pageMapUntil (u32 (h.mallocTop + size)) h.paging = some r) :
    ∃ limit p, PagesFor pg h size limit p := by
  by_cases hgrow : NeedsPages h size
  · obtain ⟨⟨limit, p⟩, hcall⟩ := hpages hgrow
    exact ⟨limit, p, (if_pos hgrow).mpr hcall⟩
  · exact ⟨_, _, (if_neg hgrow).mpr ⟨rfl, rfl⟩⟩

/-- **`malloc` appends** whatever the size, with the limit and the pages that `page_map_until` leaves. -/
theorem malloc_appends (h : HeapInv root s) {fuel size : Nat} (hpos : 0 < size) (hsize : size < 4294967296)
    (hfuel : s.given.length + 1 < fuel) {limit : Nat} {p : σ}
    (hpages : PagesFor pg s.heap size limit p) :
    ∃ m, malloc pg fuel size s.heap = .ok (u32 (s.heap.mallocTop + 20),
      { s.heap with
        mem := m, heap := limit, paging := p, lastBlock := s.heap.mallocTop
        mallocTop := u32 (u32 (s.heap.mallocTop + 20) + size) }) := by
  have hlast := h.last_le
  unfold PagesFor at hpages
  unfold malloc
  rw [if_neg (by omega), h.findHole fuel size, if_pos hfuel]
  simp only [ne_eq, not_true_eq_false, if_false]
  obtain ⟨m, happend⟩ := @appendBlock_words σ size { s.heap with heap := limit, paging := p } hsize hlast
  refine ⟨m, ?_⟩
  by_cases hgrow : u32 (s.heap.mallocTop + size + 20) > s.heap.heap
  · rw [if_pos (show NeedsPages s.heap size from hgrow)] at hpages
    rw [if_pos hgrow, show expand pg size s.heap = some (limit, p) from hpages]
    exact congrArg Except.ok happend
  · rw [if_neg (show ¬ NeedsPages s.heap size from hgrow)] at hpages
    obtain ⟨rfl, rfl⟩ := hpages
    rw [if_neg hgrow]
    exact congrArg Except.ok happend

/-- The heap's list of blocks, its end and `last_block`. -/
structure SameBlocks (h h' : Heap σ) : Prop where
  mem_eq : h'.mem = h.mem
  root_eq : h'.rootMblock = h.rootMblock
  last_eq : h'.lastBlock = h.lastBlock
  top_eq : h'.mallocTop = h.mallocTop

/-- `malloc` has returned null and left the blocks alone, or a block behind all of `blocks` that does not
wrap, with a higher `malloc_top`. -/
def MallocSound (blocks : List Block) (h h' : Heap σ) (size addr : Nat) : Prop :=
  addr = null ∧ SameBlocks h h'
    ∨ addr ≠ null ∧ addr + size < 4294967296 ∧ h.mallocTop < h'.mallocTop
      ∧ ∀ b ∈ blocks, b.addr + b.size ≤ addr

/-- The last block ends at `malloc_top`. -/
theorem HeapInv.exists_last (h : HeapInv root s) :
    ∃ b ∈ root :: s.given, b.addr + b.size = s.heap.mallocTop := by
  obtain ⟨init, b, hsplit, _⟩ := h.last
  have hb : b ∈ root :: s.given := by
    rw [hsplit]
    simp
  refine ⟨b, hb, ?_⟩
  have htiles := h.tiles
  rw [hsplit, List.map_append, Extent.endToEnd_append] at htiles
  obtain ⟨a, _, _, hend⟩ := htiles
  have hfin : b.header + (20 + b.size) = s.heap.mallocTop := hend
  have haddr := h.addr_eq b hb
  omega

/-- One call, in a heap that meets the invariant. -/
theorem malloc_sound (h : HeapInv root s) {fuel size : Nat} (hsize : size < 4294967296)
    (hfuel : s.given.length + 1 < fuel)
    (hpages : NeedsPages s.heap size →
      ∃ r, pg.pageMapUntil (u32 (s.heap.mallocTop + size)) s.heap.paging = some r) :
    ∃ addr h', malloc pg fuel size s.heap = .ok (addr, h')
      ∧ (MallocSound (root :: s.given) s.heap h' size addr
        ↔ size = 0 ∨ s.heap.mallocTop + 20 + size < 4294967296) := by
  have hlast := h.last_le
  have htop := h.top_lt
  rcases Nat.eq_zero_or_pos size with rfl | hpos
  · exact ⟨null, s.heap, if_pos rfl, iff_of_true (Or.inl ⟨rfl, rfl, rfl, rfl, rfl⟩) (Or.inl rfl)⟩
  · obtain ⟨limit, p, hmapped⟩ := exists_pagesFor hpages
    obtain ⟨m, hcall⟩ := malloc_appends h hpos hsize hfuel hmapped
    refine ⟨_, _, hcall, ?_⟩
    constructor
    · rintro (⟨_, hsame⟩ | ⟨_, hend, _, hbehind⟩)
      · -- the block has been linked
        have hkept : s.heap.mallocTop = s.heap.lastBlock := hsame.last_eq
        omega
      · obtain ⟨b, hb, hfin⟩ := h.exists_last
        have hle := hbehind b hb
        have hroot := (h.bounds hb).1
        have hpos := h.root_pos
        unfold u32 at hle hend
        omega
    · rintro (rfl | hfit)
      · omega
      · have haddr : u32 (s.heap.mallocTop + 20) = s.heap.mallocTop + 20 := u32_of_lt (by omega)
        right
        rw [haddr]
        refine ⟨by unfold null; omega, hfit, ?_, ?_⟩
        · show s.heap.mallocTop < u32 (s.heap.mallocTop + 20 + size)
          rw [u32_of_lt hfit]
          omega
        · intro b hb
          have hbound := (h.bounds hb).2
          have hheader := h.addr_eq b hb
          omega

end

/-- **Sizes.** Start from the state `mm` leaves, and let callers allocate, free and write inside their
blocks in any order, no block reaching `2 ^ 32`. A further call with any size returns if
`page_map_until` does; it returns null and leaves the blocks alone, or a block behind all others that
does not wrap, with a higher `malloc_top`, if and only if the size is 0 or the block ends below
`2 ^ 32`. -/
theorem malloc_sound_iff {σ : Type} {pg : Paging σ} {fuel₀ kernelVaddrEnd : Nat} {mb : MultibootInfo}
    {h₀ h : Heap σ} (hroot : mmHeapStart kernelVaddrEnd mb + 20 + 1 < 4294967296)
    (hmm : mm pg fuel₀ kernelVaddrEnd mb h₀ = .ok h) {tr : List (Transition (HeapState σ) HeapEvent)}
    {s : HeapState σ} (hrun : Run (HeapStep pg) ⟨h, []⟩ tr s) {fuel size : Nat}
    (hsize : size < 4294967296) (hfuel : s.given.length + 1 < fuel)
    (hpages : NeedsPages s.heap size →
      ∃ r, pg.pageMapUntil (u32 (s.heap.mallocTop + size)) s.heap.paging = some r) :
    ∃ addr h', malloc pg fuel size s.heap = .ok (addr, h')
      ∧ (MallocSound (rootBlock kernelVaddrEnd mb :: s.given) s.heap h' size addr
        ↔ size = 0 ∨ s.heap.mallocTop + 20 + size < 4294967296) :=
  malloc_sound (hrun.invariant (mm_inv hroot hmm) fun _ _ _ hpre hstep => hpre.step hstep) hsize hfuel
    hpages

/-- The heap of a kernel that ends at `0xC0001000`. -/
theorem flatPaging_started (h₀ : Heap Nat) :
    ∃ h, mm flatPaging 0x100001 0xC0001000 ⟨0x8000, 0, fun _ => ⟨0, 0⟩⟩ h₀ = .ok h
      ∧ h.mallocTop = 0xC0001015 := by
  obtain ⟨h, hmm⟩ := @mm_returns _ flatPaging 0xC0001000 0x100000 ⟨0x8000, 0, fun _ => ⟨0, 0⟩⟩ h₀
    (by decide) (Nat.le_refl _) (fun _ _ _ _ => ⟨_, rfl⟩) fun _ _ _ => ⟨_, rfl⟩
  exact ⟨h, hmm, (mm_spec (by decide) hmm).2.2.2.2.1⟩

/-- `malloc(5)` right after `mm`. -/
theorem malloc_sound_five :
    ∃ h addr h', mm flatPaging 0x100001 0xC0001000 ⟨0x8000, 0, fun _ => ⟨0, 0⟩⟩
        ⟨fun _ => 0, 0, 0, 0, 0, 0⟩ = .ok h
      ∧ malloc flatPaging 2 5 h = .ok (addr, h')
      ∧ MallocSound [rootBlock 0xC0001000 ⟨0x8000, 0, fun _ => ⟨0, 0⟩⟩] h h' 5 addr := by
  obtain ⟨h, hmm, htop⟩ := flatPaging_started ⟨fun _ => 0, 0, 0, 0, 0, 0⟩
  obtain ⟨addr, h', hcall, hiff⟩ := @malloc_sound_iff _ flatPaging _ _ _ _ h (by decide) hmm _ _ Run.nil 2 5
    (by decide) (show 0 + 1 < 2 by decide) fun _ => ⟨_, rfl⟩
  refine ⟨h, addr, h', hmm, hcall, hiff.mpr (Or.inr ?_)⟩
  show h.mallocTop + 20 + 5 < 4294967296
  rw [htop]
  decide

/-- `malloc(0x50000000)` there: the block wraps, and `malloc_top` falls to `0x10001029`. -/
theorem malloc_wraps :
    ∃ h h', mm flatPaging 0x100001 0xC0001000 ⟨0x8000, 0, fun _ => ⟨0, 0⟩⟩
        ⟨fun _ => 0, 0, 0, 0, 0, 0⟩ = .ok h
      ∧ malloc flatPaging 2 0x50000000 h = .ok (0xC0001029, h') ∧ h'.mallocTop = 0x10001029
      ∧ ¬ MallocSound [rootBlock 0xC0001000 ⟨0x8000, 0, fun _ => ⟨0, 0⟩⟩] h h' 0x50000000 0xC0001029 := by
  obtain ⟨h, hmm, htop⟩ := flatPaging_started ⟨fun _ => 0, 0, 0, 0, 0, 0⟩
  have hinv := mm_inv (show mmHeapStart 0xC0001000 ⟨0x8000, 0, fun _ => ⟨0, 0⟩⟩ + 20 + 1 < 4294967296 by
    decide) hmm
  -- the size is kept as a variable, so that no test on it is decided by counting
  generalize hsize : 0x50000000 = size
  obtain ⟨limit, p, hpages⟩ := @exists_pagesFor _ flatPaging h size fun _ => ⟨_, rfl⟩
  obtain ⟨m, hcall⟩ := malloc_appends hinv (by omega) (by omega) (show 0 + 1 < 2 by decide) hpages
  have haddr : u32 (h.mallocTop + 20) = 0xC0001029 := by
    rw [htop]
    decide
  have hend : u32 (0xC0001029 + size) = 0x10001029 := by
    rw [← hsize]
    decide
  rw [haddr, hend] at hcall
  refine ⟨h, _, hmm, hcall, rfl, ?_⟩
  rintro (⟨hnull, _⟩ | ⟨_, hfit, _⟩)
  · cases hnull
  · omega

/-! ## Out of memory -/

/-- `malloc` needs pages for the block, `frame_get` returns 0 while they are mapped, and a page of the
block stays unmapped. -/
structure RunsOut (h : Heap PageState) (size limit : Nat) (p : PageState) : Prop where
  needs : NeedsPages h size
  call : kernelPaging.pageMapUntil (u32 (h.mallocTop + size)) h.paging = some (limit, p)
  zero : ∃ given, p.got = given ++ h.paging.got ∧ 0 ∈ given
  absent : ∃ a, h.mallocTop ≤ a ∧ a < h.mallocTop + 20 + size ∧ ¬ p.Present a

/-- The call returned null and left the heap as it was. -/
def Reported {σ : Type} (h h' : Heap σ) (addr : Nat) : Prop := addr = null ∧ SameBlocks h h'

theorem malloc_unreported {root : Block} {s : HeapState PageState} (h : HeapInv root s) {fuel size : Nat}
    (hpos : 0 < size) (hsize : size < 4294967296) (hfuel : s.given.length + 1 < fuel) {limit : Nat}
    {p : PageState} (hout : RunsOut s.heap size limit p) :
    ∃ h', malloc kernelPaging fuel size s.heap = .ok (u32 (s.heap.mallocTop + 20), h')
      ∧ h'.lastBlock = s.heap.mallocTop ∧ h'.paging = p
      ∧ ¬ Reported s.heap h' (u32 (s.heap.mallocTop + 20)) := by
  have hlast := h.last_le
  obtain ⟨m, hcall⟩ := malloc_appends h hpos hsize hfuel ((if_pos hout.needs).mpr hout.call)
  refine ⟨_, hcall, rfl, rfl, ?_⟩
  rintro ⟨_, hsame⟩
  have hkept : s.heap.mallocTop = s.heap.lastBlock := hsame.last_eq
  omega

/-- **Out of memory.** In every heap that callers can leave and for every size, a call of `malloc` for
which `frame_get` returns 0, so that a page of the block stays unmapped, returns the block all the same
and links it. -/
theorem out_of_memory_unreported {fuel₀ kernelVaddrEnd : Nat} {mb : MultibootInfo} {h₀ h : Heap PageState}
    (hroot : mmHeapStart kernelVaddrEnd mb + 20 + 1 < 4294967296)
    (hmm : mm kernelPaging fuel₀ kernelVaddrEnd mb h₀ = .ok h)
    {tr : List (Transition (HeapState PageState) HeapEvent)} {s : HeapState PageState}
    (hrun : Run (HeapStep kernelPaging) ⟨h, []⟩ tr s) {fuel size : Nat} (hpos : 0 < size)
    (hsize : size < 4294967296) (hfuel : s.given.length + 1 < fuel) {limit : Nat} {p : PageState}
    (hout : RunsOut s.heap size limit p) :
    ∃ h', malloc kernelPaging fuel size s.heap = .ok (u32 (s.heap.mallocTop + 20), h')
      ∧ h'.lastBlock = s.heap.mallocTop ∧ h'.paging = p
      ∧ ¬ Reported s.heap h' (u32 (s.heap.mallocTop + 20)) :=
  malloc_unreported (hrun.invariant (mm_inv hroot hmm) fun _ _ _ hpre hstep => hpre.step hstep) hpos hsize
    hfuel hout

/-- With no frame left, `page_map_until` returns the old limit. -/
theorem pageMapUntil_out {s : PageState} (hfree : s.frames.framesFree = 0) {limit : Nat}
    (hlimit : u32 (pageUpper s + 0x1000) ≤ pageBase limit) :
    kernelPaging.pageMapUntil limit s
      = some (u32 (pageUpper s + 0x1000), { s with got := 0 :: s.got }) := by
  have hget : s.frameGet = some (0, { s with got := 0 :: s.got }) := by
    unfold PageState.frameGet
    rw [frameGet, if_pos hfree]
  unfold kernelPaging pageMapUntil
  dsimp only
  rw [show 0x100001 = 0x100000 + 1 from rfl, Loop.loop, pageMapUntilTurn, if_pos hlimit, hget]
  rfl

/-- The page behind the first 4 MB is the first one that is not present. -/
theorem FirstTable.pageUpper {f : Frames} {p : PageState} (h : FirstTable f p) :
    DiyOS.pageUpper p = 0xC03FF000 ∧ ¬ p.Present 0xC0400000 := by
  have hbase : kernelBase = 0xC0000000 := rfl
  have hslot : directorySlot 0xC0400000 = 769 := by decide
  have hentry : p.tableEntry 0xC0400000 = 0 := by
    have htable : p.table 769 = 0 := by
      rw [PageState.table, h.next]
      decide
    rw [PageState.tableEntry_eq, hslot, htable]
    exact h.low _ (tableSlot_lt _)
  refine ⟨?_, fun hpresent => PageState.tableEntry_ne_zero hpresent hentry⟩
  obtain ⟨e, hupper, hge, _, _, hbetween, hend⟩ :=
    @pageUpperLoop_spec p kernelBase (le_refl _) (by decide) (by decide)
  have hlast : e = 0xC0400000 := by
    rcases Nat.lt_trichotomy e 0xC0400000 with hlt | heq | hgt
    · exact absurd (hend (Nat.lt_trans hlt (by decide))) (PageState.tableEntry_ne_zero (h.present e hge hlt))
    · exact heq
    · exact absurd hentry (hbetween 0xC0400000 (by decide) hgt)
  rw [DiyOS.pageUpper, hupper, hlast]

/-- A kernel that ends at `0xC0010000` in a memory that ends there, too: `mm` leaves no frame, and a block
that ends behind the first 4 MB cannot be mapped. -/
theorem startHeap_out :
    ∃ h limit p, mm kernelPaging 0x1001 0xC0010000 ⟨0x440, 0, fun _ => ⟨0, 0⟩⟩ startHeap = .ok h
      ∧ h.mallocTop = 0xC0010015 ∧ RunsOut h 0x400000 limit p := by
  have hreserved : mmReservedEnd 0xC0010000 ⟨0x440, 0, fun _ => ⟨0, 0⟩⟩ = 0x110000 := by decide
  obtain ⟨h, f, hmm, hsetup, hfirst⟩ := @startHeap_pages 0xC0010000 ⟨0x440, 0, fun _ => ⟨0, 0⟩⟩ (by decide)
    (by rw [hreserved]; decide) (by rw [hreserved]; decide)
  have hsize : u32 (0x440 * 1024) = 0x110000 := by decide
  rw [hreserved, hsize] at hsetup
  -- every frame is reserved
  have hfree : h.paging.frames.framesFree = 0 := by
    have hcount := (frameSetupLoop_spec (by decide) hsetup).2.2
      (show (0x110000 - 0 + 4095) / 4096 ≤ 0x110000 / 4096 by omega)
      (show 0x110000 / 4096 < 4294967296 by omega)
    have htotal : f.framesFree + (0x110000 - 0 + 4095) / 4096 = 0x110000 / 4096 := hcount
    rw [hfirst.frames_eq]
    omega
  obtain ⟨_, _, _, _, htop, hheap⟩ := mm_spec (by decide) hmm
  have hstart : h.mallocTop = 0xC0010015 := htop
  obtain ⟨hupper, habsent⟩ := hfirst.pageUpper
  have hlimit : u32 (h.mallocTop + 0x400000) = 0xC0410015 := by
    rw [hstart]
    decide
  have hcall := @pageMapUntil_out h.paging hfree (u32 (h.mallocTop + 0x400000))
    (by rw [hlimit, hupper]; decide)
  refine ⟨h, _, _, hmm, hstart, ?_, hcall, ⟨[0], rfl, by decide⟩, 0xC0400000, ?_, ?_, habsent⟩
  · unfold NeedsPages u32
    rw [hstart, hheap]
    decide
  · rw [hstart]
    decide
  · rw [hstart]
    decide

/-- The block `0xC0010029` of a heap that has run out. -/
theorem out_of_memory_started :
    ∃ h h', mm kernelPaging 0x1001 0xC0010000 ⟨0x440, 0, fun _ => ⟨0, 0⟩⟩ startHeap = .ok h
      ∧ malloc kernelPaging 2 0x400000 h = .ok (u32 (h.mallocTop + 20), h')
      ∧ h'.lastBlock = 0xC0010015 := by
  obtain ⟨h, limit, p, hmm, htop, hout⟩ := startHeap_out
  obtain ⟨h', hcall, hlast, _⟩ := out_of_memory_unreported (by decide) hmm Run.nil (by decide) (by decide)
    (show 0 + 1 < 2 by decide) hout
  exact ⟨h, h', hmm, hcall, hlast.trans htop⟩

/-- `malloc(0x400000)` there is given a block that is not mapped, and reports nothing. -/
theorem malloc_unmapped_block :
    ∃ h h' limit p, mm kernelPaging 0x1001 0xC0010000 ⟨0x440, 0, fun _ => ⟨0, 0⟩⟩ startHeap = .ok h
      ∧ RunsOut h 0x400000 limit p ∧ malloc kernelPaging 2 0x400000 h = .ok (0xC0010029, h')
      ∧ ¬ Reported h h' 0xC0010029 := by
  obtain ⟨h, limit, p, hmm, htop, hout⟩ := startHeap_out
  obtain ⟨h', hcall, _, _, hnot⟩ := malloc_unreported (mm_inv (by decide) hmm) (by decide) (by decide)
    (show 0 + 1 < 2 by decide) hout
  have haddr : u32 (h.mallocTop + 20) = 0xC0010029 := by
    rw [htop]
    decide
  have hcall' : malloc kernelPaging 2 0x400000 h = .ok (u32 (h.mallocTop + 20), h') := hcall
  have hnot' : ¬ Reported h h' (u32 (h.mallocTop + 20)) := hnot
  rw [haddr] at hcall' hnot'
  exact ⟨h, h', limit, p, hmm, hout, hcall', hnot'⟩

end DiyOS
