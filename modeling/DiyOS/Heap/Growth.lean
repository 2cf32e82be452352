import DiyOS.Heap.Integrity

/-!
# Growth of the kernel heap

`malloc` asks for more pages when the new header and payload would end above `heap`. It asks
`expand` for `size` bytes from `malloc_top`: the header's twenty bytes are in the test and not in the
request. The pages that `page_map_until` maps then end with the page of `malloc_top + size`, and the
block ends twenty bytes later.

* **`PagesUntil`** — what is assumed of `page_map_until`.
* **`GrowthCovers`** — the condition on the heap before the call: no growth is needed, or
  `malloc_top + size` does not lie in the last nineteen bytes of its page.
* **`malloc_mapped_iff`** — over every run, all blocks lie below `heap`, on mapped pages, if and only
  if every call met that condition.
-/

namespace DiyOS

open Word

variable {σ : Type} {pg : Paging σ} {mapped : σ → Nat → Prop}

/-- `page_map_until(limit)` maps every page of the kernel's part of the memory up to and including
the page of `limit`, and returns the end of that page. `mapped p a` says that in the paging state
`p` the address `a` lies on a mapped page. -/
structure PagesUntil (pg : Paging σ) (mapped : σ → Nat → Prop) : Prop where
  returns : ∀ limit p, limit < 4294967296 →
    ∃ p', pg.pageMapUntil limit p = some (u32 (pageBase limit + 0x1000), p')
  maps : ∀ limit p end' p', limit < 4294967296 → pg.pageMapUntil limit p = some (end', p') →
    ∀ a, kernelBase ≤ a → a < pageBase limit + 0x1000 → mapped p' a

/-- `malloc(size)` in the heap `h` finds enough pages, or gets enough of them. -/
def GrowthCovers (h : Heap σ) (size : Nat) : Prop :=
  h.mallocTop + size + 20 ≤ h.heap
    ∨ (h.mallocTop + size) % 4096 + 20 ≤ 4096 ∧ h.mallocTop + size < 0xFFFFF000

/-- A call of `malloc` met `GrowthCovers`. -/
def CallCovers (τ : Transition (HeapState σ) HeapEvent) : Prop :=
  match τ.event with
  | .malloc size _ => GrowthCovers τ.pre.heap size
  | _ => True

/-- The block that a call of `malloc` returned ends at or below `heap`, and every byte of its header
and of its payload lies on a mapped page. -/
def BlockMapped (mapped : σ → Nat → Prop) (τ : Transition (HeapState σ) HeapEvent) : Prop :=
  match τ.event with
  | .malloc size addr => addr + size ≤ τ.post.heap.heap
      ∧ ∀ a, addr - 20 ≤ a → a < addr + size → mapped τ.post.heap.paging a
  | _ => True

/-- The kernel's addresses below the global `heap` are mapped. -/
def MappedBelow (mapped : σ → Nat → Prop) (h : Heap σ) : Prop :=
  ∀ a, kernelBase ≤ a → a < h.heap → mapped h.paging a

/-! ## One call -/

/-- The end of a page, as `page_map_until` returns it: zero for the last page. -/
theorem pageEnd_cases {limit : Nat} (h : limit < 4294967296) :
    u32 (pageBase limit + 0x1000) = 0 ∧ 0xFFFFF000 ≤ limit
      ∨ u32 (pageBase limit + 0x1000) = limit - limit % 4096 + 4096 ∧ limit < 0xFFFFF000 := by
  rw [pageBase_eq h]
  unfold u32
  omega

/-- The growth of `Appended`, with what `page_map_until` returned. -/
theorem Appended.heap_eq (hpages : PagesUntil pg mapped) {size : Nat} {s h : Heap σ}
    (happ : Appended pg size s h) (hfit : s.mallocTop + 20 + size < 4294967296) :
    (s.mallocTop + size + 20 ≤ s.heap ∧ h.heap = s.heap ∧ h.paging = s.paging)
      ∨ (s.heap < s.mallocTop + size + 20
        ∧ h.heap = u32 (pageBase (s.mallocTop + size) + 0x1000)
        ∧ ∀ a, kernelBase ≤ a → a < pageBase (s.mallocTop + size) + 0x1000 → mapped h.paging a) := by
  rcases happ.grown with hkept | ⟨hgrow, hcall⟩
  · exact Or.inl hkept
  · have hlimit : s.mallocTop + size < 4294967296 := by omega
    rcases hpages.returns (s.mallocTop + size) s.paging hlimit with ⟨p', hret⟩
    rcases Prod.mk.inj (Option.some.inj (hret.symm.trans hcall)) with ⟨hheap, hpaging⟩
    rw [hpaging] at hret
    exact Or.inr ⟨hgrow, hheap.symm, hpages.maps _ _ _ _ hlimit hret⟩

/-- What lies below the global `heap` stays mapped. -/
theorem Appended.mappedBelow (hpages : PagesUntil pg mapped) {size : Nat} {s h : Heap σ}
    (happ : Appended pg size s h) (hfit : s.mallocTop + 20 + size < 4294967296)
    (hbelow : MappedBelow mapped s) : MappedBelow mapped h := by
  intro a hbase hlt
  rcases happ.heap_eq hpages hfit with ⟨_, hheap, hpaging⟩ | ⟨_, hheap, hmaps⟩
  · rw [hpaging]
    exact hbelow a hbase (by omega)
  · have hle : u32 (pageBase (s.mallocTop + size) + 0x1000)
        ≤ pageBase (s.mallocTop + size) + 0x1000 := Nat.mod_le _ _
    exact hmaps a hbase (by omega)

/-- Whether the new block ends below `heap` is decided by the condition. -/
theorem Appended.below_iff (hpages : PagesUntil pg mapped) {size : Nat} {s h : Heap σ}
    (happ : Appended pg size s h) (hfit : s.mallocTop + 20 + size < 4294967296) :
    s.mallocTop + 20 + size ≤ h.heap ↔ GrowthCovers s size := by
  unfold GrowthCovers
  rcases happ.heap_eq hpages hfit with ⟨hroom, hheap, _⟩ | ⟨hgrow, hheap, _⟩
  · omega
  · -- the pages end with the page of `malloc_top + size`, whose last twenty bytes are too few
    have hcases := pageEnd_cases (show s.mallocTop + size < 4294967296 by omega)
    omega

/-! ## Runs -/

/-- The invariant of the heap together with the pages under it. -/
structure GrowthInv (mapped : σ → Nat → Prop) (root : Block) (s : HeapState σ) : Prop where
  inv : HeapInv root s
  base : kernelBase ≤ s.heap.rootMblock
  below : MappedBelow mapped s.heap

variable {root : Block} {s : HeapState σ}

theorem GrowthInv.step (hpages : PagesUntil pg mapped) (h : GrowthInv mapped root s)
    {e : HeapEvent} {s' : HeapState σ} (hstep : HeapStep pg s e s') : GrowthInv mapped root s' := by
  have hinv := h.inv.step hstep
  cases hstep with
  | malloc hpos hfit hcall =>
    have happ := (malloc_spec h.inv hpos hfit hcall).2
    refine ⟨hinv, ?_, happ.mappedBelow hpages hfit h.below⟩
    rw [happ.root_eq]
    exact h.base
  | free addr => exact ⟨hinv, h.base, h.below⟩
  | write byte hb hlo hhi => exact ⟨hinv, h.base, h.below⟩

/-- One call of `malloc`: its block is on mapped pages if and only if the call met the condition. -/
theorem GrowthInv.blockMapped_iff (hpages : PagesUntil pg mapped) (h : GrowthInv mapped root s)
    {e : HeapEvent} {s' : HeapState σ} (hstep : HeapStep pg s e s') :
    BlockMapped mapped ⟨s, e, s'⟩ ↔ CallCovers ⟨s, e, s'⟩ := by
  cases hstep with
  | @malloc fuel size addr h' hpos hfit hcall =>
    rcases malloc_spec h.inv hpos hfit hcall with ⟨haddr, happ⟩
    have hiff := happ.below_iff hpages hfit
    have hbelow := happ.mappedBelow hpages hfit h.below
    have hroot := h.inv.tiles.bounds.1
    have hbase := h.base
    show (addr + size ≤ h'.heap ∧ ∀ a, addr - 20 ≤ a → a < addr + size → mapped h'.paging a)
      ↔ GrowthCovers s.heap size
    rw [haddr, ← hiff]
    refine ⟨fun hblock => hblock.1, fun hle => ⟨hle, ?_⟩⟩
    intro a hlo hhi
    exact hbelow a (by omega) (by omega)
  | free addr => exact Iff.rfl
  | write byte hb hlo hhi => exact Iff.rfl

/-- **Blocks and mapped pages.** Suppose `page_map_until(limit)` maps the pages up to the one of
`limit` and returns its end. Start from the state `mm` leaves, the global `heap` still 0. In every run
in which no request wraps 32 bits, each block that `malloc` returns ends at or below `heap`, with its
payload and its header on mapped pages, if and only if each call met `GrowthCovers`. The linker script
puts the end of the kernel above `KERNEL_BASE`. -/
theorem malloc_mapped_iff (hpages : PagesUntil pg mapped) {fuel kernelVaddrEnd : Nat}
    {mb : MultibootInfo} {h₀ h : Heap σ} (hkernel : kernelBase ≤ kernelVaddrEnd)
    (hroot : mmHeapStart kernelVaddrEnd mb + 20 + 1 < 4294967296) (hheap : h₀.heap = 0)
    (hmm : mm pg fuel kernelVaddrEnd mb h₀ = .ok h)
    {tr : List (Transition (HeapState σ) HeapEvent)} {s : HeapState σ}
    (hrun : Run (HeapStep pg) ⟨h, []⟩ tr s) :
    (∀ τ ∈ tr, BlockMapped mapped τ) ↔ ∀ τ ∈ tr, CallCovers τ := by
  rcases mm_spec hroot hmm with ⟨_, _, hrootEq, _, _, hheapEq⟩
  have hge : kernelVaddrEnd ≤ mmHeapStart kernelVaddrEnd mb := mmFindHeap_ge mb _ _
  have hstart : GrowthInv mapped (rootBlock kernelVaddrEnd mb) ⟨h, []⟩ := by
    refine ⟨mm_inv hroot hmm, Nat.le_trans hkernel (hrootEq ▸ hge), ?_⟩
    intro a _ hlt
    -- the global `heap` is 0, and nothing lies below it
    rw [hheapEq, hheap] at hlt
    exact absurd hlt (Nat.not_lt_zero a)
  exact hrun.all_iff hstart (fun _ _ _ hpre hstep => hpre.step hpages hstep)
    fun _ _ _ hpre hstep => hpre.blockMapped_iff hpages hstep

/-! ## A request that crosses the mapped end -/

/-- The addresses below the state of `flatPaging`. -/
def FlatMapped (upper a : Nat) : Prop := a < upper

theorem flatPaging_pagesUntil : PagesUntil flatPaging FlatMapped where
  returns _ _ _ := ⟨_, rfl⟩
  maps limit p end' p' _ hcall a _ hlt := by
    have hstate : max p (pageBase limit + 0x1000) = p' :=
      congrArg Prod.snd (Option.some.inj hcall)
    rw [← hstate]
    exact Nat.lt_of_lt_of_le hlt (Nat.le_max_right _ _)

/-- `malloc(5)` after a kernel that ends at `0xC0001000` lies on mapped pages. -/
theorem malloc_mapped_five :
    ∃ (h : Heap Nat) (tr : List (Transition (HeapState Nat) HeapEvent)) (s : HeapState Nat),
      mm flatPaging 0x100001 0xC0001000 ⟨0x8000, 0, fun _ => ⟨0, 0⟩⟩ ⟨fun _ => 0, 0, 0, 0, 0, 0⟩
          = .ok h
        ∧ Run (HeapStep flatPaging) ⟨h, []⟩ tr s ∧ s.given = [⟨0xC0001029, 5⟩]
        ∧ ∀ τ ∈ tr, BlockMapped FlatMapped τ := by
  let mb : MultibootInfo := ⟨0x8000, 0, fun _ => ⟨0, 0⟩⟩
  obtain ⟨h, h', hmm, hmalloc⟩ := @flatPaging_malloc 0xC0001000 5 mb ⟨fun _ => 0, 0, 0, 0, 0, 0⟩
    (by decide) (by decide) (by decide)
  have hrun := Run.nil.snoc hmalloc
  refine ⟨h, _, _, hmm, hrun, rfl, ?_⟩
  refine (malloc_mapped_iff flatPaging_pagesUntil (by decide) (by decide) rfl hmm hrun).mpr ?_
  intro τ hτ
  have htop : h.mallocTop = 0xC0001015 := (mm_spec (by decide) hmm).2.2.2.2.1
  obtain rfl := List.mem_singleton.mp hτ
  exact Or.inr (by rw [htop]; decide)

/-- A kernel that ends at `0xC0010000`: the block of `malloc(4074)` ends at `0xC0011013`, and `heap`
is `0xC0011000`. -/
theorem malloc_crosses_heap :
    ∃ (h : Heap Nat) (tr : List (Transition (HeapState Nat) HeapEvent)) (s : HeapState Nat),
      mm flatPaging 0x100001 0xC0010000 ⟨0x8000, 0, fun _ => ⟨0, 0⟩⟩ ⟨fun _ => 0, 0, 0, 0, 0, 0⟩
          = .ok h
        ∧ PagesUntil flatPaging FlatMapped ∧ Run (HeapStep flatPaging) ⟨h, []⟩ tr s
        ∧ s.given = [⟨0xC0010029, 4074⟩] ∧ s.heap.heap = 0xC0011000
        ∧ s.heap.heap < 0xC0010029 + 4074 ∧ ¬ ∀ τ ∈ tr, BlockMapped FlatMapped τ := by
  let mb : MultibootInfo := ⟨0x8000, 0, fun _ => ⟨0, 0⟩⟩
  obtain ⟨h, h', hmm, hmalloc⟩ := @flatPaging_malloc 0xC0010000 4074 mb
    ⟨fun _ => 0, 0, 0, 0, 0, 0⟩ (by decide) (by decide) (by decide)
  have hroot : mmHeapStart 0xC0010000 mb + 20 + 1 < 4294967296 := by decide
  rcases mm_spec hroot hmm with ⟨_, _, _, _, htop, hheap⟩
  have hnew : h'.heap = 0xC0011000 := by
    cases hmalloc with
    | malloc hpos hfit hcall =>
      have happ := (malloc_spec (mm_inv hroot hmm) hpos hfit hcall).2
      rcases happ.heap_eq flatPaging_pagesUntil hfit with ⟨hroom, _, _⟩ | ⟨_, hgrown, _⟩
      · exact absurd (Nat.le_trans (Nat.le_add_left 20 _) hroom) (by rw [hheap]; decide)
      · rw [hgrown, htop]
        decide
  refine ⟨h, _, _, hmm, flatPaging_pagesUntil, Run.nil.snoc hmalloc, rfl, hnew, ?_, ?_⟩
  · rw [hnew]
    decide
  · intro hall
    have hle : 0xC0010029 + 4074 ≤ h'.heap := (hall _ List.mem_cons_self).1
    rw [hnew] at hle
    exact absurd hle (by decide)

end DiyOS
