import DiyOS.Heap.Mm
import DiyOS.Lib.Extent
import DiyOS.Lib.Run
import Mathlib.Data.List.Pairwise

/-!
# Integrity of the kernel heap

The heap under its callers: `malloc`, `free`, and writes into the payloads that `malloc` gave out,
in any order, from the state `mm` leaves.

* **`HeapInv`** — the invariant: the headers of all blocks are linked in the order they were created,
  none of them is a hole, and headers and payloads tile the addresses from `root_mblock` to
  `malloc_top`.
* **`findHole_linked`** — over such a list the hole search neither finds a hole nor panics.
* **`malloc_spec`** — so `malloc` always appends.
* **`heap_integrity`** — the invariant spelled out, for every run.
-/

namespace DiyOS

open Word

/-- A block: the address of its payload and its size. The header stands right before it. -/
structure Block where
  addr : Nat
  size : Nat

namespace Block

def header (b : Block) : Nat := b.addr - 20

/-- The header and the payload. -/
def extents (b : Block) : List Extent := [⟨b.header, 20⟩, ⟨b.addr, b.size⟩]

/-- The header and the payload together. -/
def extent (b : Block) : Extent := ⟨b.header, 20 + b.size⟩

theorem tiles (b : Block) (haddr : b.addr = b.header + 20) :
    Extent.EndToEnd b.extent.start b.extents b.extent.fin := by
  refine ⟨rfl, haddr, ?_⟩
  show b.addr + b.size = b.header + (20 + b.size)
  omega

end Block

/-! ## The heap under its callers

A caller gets blocks, writes into them, and frees them; `free` does nothing. It never writes to a header. -/

/-- The heap with the blocks `malloc` gave out, oldest first. -/
structure HeapState (σ : Type) where
  heap : Heap σ
  given : List Block

/-- A call of `malloc` with its result, a call of `free`, or a write of one byte by a caller. -/
inductive HeapEvent where
  | malloc (size addr : Nat)
  | free (addr : Nat)
  | write (addr : Nat) (byte : UInt8)

variable {σ : Type} {pg : Paging σ}

/-- One event. The requested block ends below `2 ^ 32`, and a caller writes inside a block it was
given. -/
inductive HeapStep (pg : Paging σ) : HeapState σ → HeapEvent → HeapState σ → Prop where
  | malloc {s : HeapState σ} {fuel size addr : Nat} {h : Heap σ} (hpos : 0 < size)
      (hfit : s.heap.mallocTop + 20 + size < 4294967296)
      (hcall : malloc pg fuel size s.heap = .ok (addr, h)) :
      HeapStep pg s (.malloc size addr) ⟨h, s.given ++ [⟨addr, size⟩]⟩
  | free {s : HeapState σ} (addr : Nat) :
      HeapStep pg s (.free addr) ⟨free addr s.heap, s.given⟩
  | write {s : HeapState σ} {b : Block} {addr : Nat} (byte : UInt8) (hb : b ∈ s.given)
      (hlo : b.addr ≤ addr) (hhi : addr < b.addr + b.size) :
      HeapStep pg s (.write addr byte)
        ⟨{ s.heap with mem := s.heap.mem.writeByte addr byte }, s.given⟩

/-! ## Linked headers

`Linked m bs` says that the headers of `bs` are linked in memory in this order. Headers are twenty bytes, so it
depends on these bytes alone. -/

/-- The header of the first block, or null. -/
def firstHeader : List Block → Nat
  | [] => null
  | b :: _ => b.header

/-- Every header describes its block, is in use, and points to the next one. -/
def Linked (m : Mem) : List Block → Prop
  | [] => True
  | b :: bs => InUse m b.header b.size (firstHeader bs) ∧ Linked m bs

theorem Linked.of_agree {m m' : Mem} {bs : List Block} (h : Linked m bs)
    (hag : ∀ b ∈ bs, Mem.Agree m m' b.header 20) : Linked m' bs := by
  induction bs with
  | nil => trivial
  | cons b bs ih =>
    refine ⟨h.1.of_agree (hag b List.mem_cons_self), ih h.2 ?_⟩
    exact fun c hc => hag c (List.mem_cons_of_mem _ hc)

theorem Linked.inUse {m : Mem} {bs : List Block} (h : Linked m bs) {b : Block} (hb : b ∈ bs) :
    ∃ next, InUse m b.header b.size next := by
  induction bs with
  | nil => cases hb
  | cons c bs ih =>
    rcases List.mem_cons.mp hb with rfl | hb
    · exact ⟨_, h.1⟩
    · exact ih h.2 hb

/-- Linking one more block behind the last one. -/
theorem Linked.append {m m' : Mem} {bs : List Block} {last c : Block}
    (h : Linked m (bs ++ [last])) (hkeep : ∀ b ∈ bs, Mem.Agree m m' b.header 20)
    (hlast : InUse m' last.header last.size c.header) (hnew : InUse m' c.header c.size null) :
    Linked m' (bs ++ [last] ++ [c]) := by
  induction bs with
  | nil => exact ⟨hlast, hnew, trivial⟩
  | cons b bs ih =>
    have hnext : firstHeader (bs ++ [last] ++ [c]) = firstHeader (bs ++ [last]) := by
      cases bs <;> rfl
    have hhead : InUse m' b.header b.size (firstHeader (bs ++ [last])) :=
      h.1.of_agree (hkeep b List.mem_cons_self)
    rw [← hnext] at hhead
    exact ⟨hhead, ih h.2 fun d hd => hkeep d (List.mem_cons_of_mem _ hd)⟩

/-- The headers that following `next` from `b` visits, up to the null pointer. -/
def heapWalk : Nat → Mem → Nat → Option (List Nat)
  | 0, _, _ => none
  | fuel + 1, m, b =>
    if b = null then some [] else (heapWalk fuel m (mblockNext m b)).map (b :: ·)

theorem heapWalk_linked {m : Mem} {bs : List Block} (h : Linked m bs)
    (hpos : ∀ b ∈ bs, b.header ≠ null) :
    heapWalk (bs.length + 1) m (firstHeader bs) = some (bs.map Block.header) := by
  induction bs with
  | nil => rfl
  | cons b bs ih =>
    have hrest := ih h.2 fun c hc => hpos c (List.mem_cons_of_mem _ hc)
    show heapWalk (bs.length + 1 + 1) m b.header = _
    rw [heapWalk, if_neg (hpos b List.mem_cons_self), h.1.next_eq, hrest]
    rfl

/-- **The hole search.** Over linked blocks in use it runs to the end of the list, where it finds
nothing; the magic of every header it meets is right. -/
theorem findHole_linked {m : Mem} {bs : List Block} (h : Linked m bs)
    (hpos : ∀ b ∈ bs, b.header ≠ null) (fuel size : Nat) :
    findHole fuel m (firstHeader bs) size
      = if bs.length < fuel then .ok (null, m) else .error .loops := by
  induction bs generalizing fuel with
  | nil =>
    cases fuel with
    | zero => rfl
    | succ fuel => simp [findHole, firstHeader]
  | cons b bs ih =>
    cases fuel with
    | zero => rfl
    | succ fuel =>
      have hrest := ih h.2 (fun c hc => hpos c (List.mem_cons_of_mem _ hc)) fuel
      have hused : ¬ (mblockHole m b.header ≠ 0 ∧ size ≤ mblockSize m b.header) := by
        rw [h.1.hole]
        exact fun hhole => hhole.1 rfl
      rw [findHole, firstHeader, if_neg (hpos b List.mem_cons_self), if_pos h.1.magic,
        if_neg hused, h.1.next_eq, hrest]
      simp only [List.length_cons, Nat.add_lt_add_iff_right]

/-! ## The invariant

The blocks lie end to end from the first header to `malloc_top`, and `last_block` is the last of them. Since no
block is ever a hole, `_find_hole` walks through all and finds none. -/

/-- The invariant of the heap whose first block is `root`. -/
structure HeapInv (root : Block) (s : HeapState σ) : Prop where
  linked : Linked s.heap.mem (root :: s.given)
  /-- Headers and payloads fill the addresses from `root_mblock` to `malloc_top`. -/
  tiles : Extent.EndToEnd s.heap.rootMblock ((root :: s.given).map Block.extent) s.heap.mallocTop
  last : ∃ init b, root :: s.given = init ++ [b] ∧ s.heap.lastBlock = b.header
  addr_eq : ∀ b ∈ root :: s.given, b.addr = b.header + 20
  root_pos : 0 < s.heap.rootMblock
  top_lt : s.heap.mallocTop < 4294967296

variable {root : Block} {s : HeapState σ}

/-- Every block lies between `root_mblock` and `malloc_top`. -/
theorem HeapInv.bounds (h : HeapInv root s) {b : Block} (hb : b ∈ root :: s.given) :
    s.heap.rootMblock ≤ b.header ∧ b.header + 20 + b.size ≤ s.heap.mallocTop := by
  rcases h.tiles.bounds.2 b.extent (List.mem_map_of_mem hb) with ⟨hlo, hhi⟩
  have hend : b.header + (20 + b.size) ≤ s.heap.mallocTop := hhi
  exact ⟨hlo, by omega⟩

theorem HeapInv.header_ne_null (h : HeapInv root s) {b : Block} (hb : b ∈ root :: s.given) :
    b.header ≠ null := by
  have hpos := h.root_pos
  have hlo := (h.bounds hb).1
  unfold null
  omega

theorem HeapInv.first (h : HeapInv root s) : s.heap.rootMblock = firstHeader (root :: s.given) :=
  h.tiles.1.symm

/-- Earlier blocks end before later ones begin. -/
theorem HeapInv.pairwise (h : HeapInv root s) :
    (root :: s.given).Pairwise fun b c => b.header + 20 + b.size ≤ c.header := by
  have hmap := h.tiles.pairwise_before
  rw [List.pairwise_map] at hmap
  refine hmap.imp ?_
  intro b c hbc
  have hend : b.header + (20 + b.size) ≤ c.header := hbc
  omega

/-- A payload meets no header. -/
theorem HeapInv.payload_outside (h : HeapInv root s) {b c : Block} (hb : b ∈ root :: s.given)
    (hc : c ∈ root :: s.given) {a : Nat} (hlo : b.addr ≤ a) (hhi : a < b.addr + b.size) :
    a < c.header ∨ c.header + 20 ≤ a := by
  have haddr := h.addr_eq b hb
  by_cases heq : b = c
  · subst heq
    omega
  · have hsymm : Std.Symm fun b c : Block =>
        b.header + 20 + b.size ≤ c.header ∨ c.header + 20 + c.size ≤ b.header :=
      ⟨fun _ _ hor => hor.symm⟩
    have hall : (root :: s.given).Pairwise fun b c : Block =>
        b.header + 20 + b.size ≤ c.header ∨ c.header + 20 + c.size ≤ b.header :=
      h.pairwise.imp fun hbc => Or.inl hbc
    have hapart := hall.forall hb hc heq
    omega

theorem HeapInv.findHole (h : HeapInv root s) (fuel size : Nat) :
    findHole fuel s.heap.mem s.heap.rootMblock size
      = if s.given.length + 1 < fuel then .ok (null, s.heap.mem) else .error .loops := by
  rw [h.first]
  exact findHole_linked h.linked (fun _ hb => h.header_ne_null hb) fuel size

/-- What `malloc` leaves: the heap `s` with one more block of `size` bytes, written behind the last
one. Its `heap` is the one given, after the pages were mapped if there were too few. -/
structure Appended (pg : Paging σ) (size : Nat) (s h : Heap σ) : Prop where
  mem_eq : h.mem = (initMblock s.mem s.mallocTop size).writeWord (s.lastBlock + 16) s.mallocTop
  top_eq : h.mallocTop = s.mallocTop + 20 + size
  last_eq : h.lastBlock = s.mallocTop
  root_eq : h.rootMblock = s.rootMblock
  grown : (s.mallocTop + size + 20 ≤ s.heap ∧ h.heap = s.heap ∧ h.paging = s.paging)
    ∨ (s.heap < s.mallocTop + size + 20
        ∧ pg.pageMapUntil (s.mallocTop + size) s.paging = some (h.heap, h.paging))

/-- The words that `malloc` reads back from the header it has just written. -/
theorem appendBlock_eq {size : Nat} {h : Heap σ} (hfit : h.mallocTop + 20 + size < 4294967296)
    (hlast : h.lastBlock + 20 ≤ h.mallocTop) :
    appendBlock size h = (h.mallocTop + 20,
      { h with
        mem := (initMblock h.mem h.mallocTop size).writeWord (h.lastBlock + 16) h.mallocTop
        lastBlock := h.mallocTop
        mallocTop := h.mallocTop + 20 + size }) := by
  have hnew : InUse (initMblock h.mem h.mallocTop size) h.mallocTop size null :=
    initMblock_inUse h.mem (by omega) (by omega)
  have hlinked := hnew.of_agree (Mem.writeWord_agree
    (initMblock h.mem h.mallocTop size) h.mallocTop (Or.inl (show h.lastBlock + 16 + 4 ≤ _ by omega)))
  unfold appendBlock
  simp only [hlinked.addr, hlinked.size_eq, u32_of_lt hfit]

theorem HeapInv.last_le (h : HeapInv root s) : s.heap.lastBlock + 20 ≤ s.heap.mallocTop := by
  rcases h.last with ⟨init, b, hsplit, hlast⟩
  have hb : b ∈ root :: s.given := by
    rw [hsplit]
    simp
  have hhi := (h.bounds hb).2
  omega

/-- **What `malloc` does**, in a heap that meets the invariant: it appends. -/
theorem malloc_spec (h : HeapInv root s) {fuel size addr : Nat} {h' : Heap σ} (hpos : 0 < size)
    (hfit : s.heap.mallocTop + 20 + size < 4294967296)
    (hcall : malloc pg fuel size s.heap = .ok (addr, h')) :
    addr = s.heap.mallocTop + 20 ∧ Appended pg size s.heap h' := by
  have hlast := h.last_le
  unfold malloc at hcall
  rw [if_neg (by omega), h.findHole fuel size] at hcall
  by_cases hfuel : s.given.length + 1 < fuel
  · rw [if_pos hfuel] at hcall
    simp only [ne_eq, not_true_eq_false, if_false] at hcall
    rw [u32_of_lt (show s.heap.mallocTop + size + 20 < 4294967296 by omega)] at hcall
    by_cases hgrow : s.heap.mallocTop + size + 20 > s.heap.heap
    · -- too few pages: `expand` is asked for `size` bytes from `malloc_top`
      rw [if_pos hgrow] at hcall
      unfold expand at hcall
      rw [u32_of_lt (show s.heap.mallocTop + size < 4294967296 by omega)] at hcall
      split at hcall
      · cases hcall
      · next newHeap p hmapped =>
        have happend := @appendBlock_eq σ size { s.heap with heap := newHeap, paging := p } hfit hlast
        rw [happend] at hcall
        cases hcall
        exact ⟨rfl, rfl, rfl, rfl, rfl, Or.inr ⟨hgrow, hmapped⟩⟩
    · rw [if_neg hgrow, appendBlock_eq hfit hlast] at hcall
      cases hcall
      exact ⟨rfl, rfl, rfl, rfl, rfl, Or.inl ⟨by omega, rfl, rfl⟩⟩
  · rw [if_neg hfuel] at hcall
    cases hcall

/-- `malloc` returns if the paging does; `fuel` bounds the hole search. -/
theorem malloc_returns (h : HeapInv root s) {fuel size : Nat} (hpos : 0 < size)
    (hfuel : s.given.length + 1 < fuel) (hfit : s.heap.mallocTop + 20 + size < 4294967296)
    (hpages : ∀ limit p, ∃ r, pg.pageMapUntil limit p = some r) :
    ∃ h', malloc pg fuel size s.heap = .ok (s.heap.mallocTop + 20, h') := by
  have hlast := h.last_le
  unfold malloc
  rw [if_neg (by omega), h.findHole fuel size, if_pos hfuel]
  simp only [ne_eq, not_true_eq_false, if_false]
  by_cases hgrow : u32 (s.heap.mallocTop + size + 20) > s.heap.heap
  · rcases hpages (u32 (s.heap.mallocTop + size)) s.heap.paging with ⟨⟨newHeap, p⟩, hmapped⟩
    rw [if_pos hgrow, show expand pg size _ = some (newHeap, p) from hmapped]
    have happend := @appendBlock_eq σ size { s.heap with heap := newHeap, paging := p } hfit hlast
    exact ⟨_, congrArg Except.ok happend⟩
  · rw [if_neg hgrow, appendBlock_eq hfit hlast]
    exact ⟨_, rfl⟩

/-- The only way for `malloc` not to return is to loop. -/
theorem malloc_ne_panic (h : HeapInv root s) {fuel size : Nat} {message : String} :
    malloc pg fuel size s.heap ≠ .error (.panic message) := by
  intro hpanic
  unfold malloc at hpanic
  rw [h.findHole fuel size] at hpanic
  by_cases hzero : size = 0
  · rw [if_pos hzero] at hpanic
    cases hpanic
  · rw [if_neg hzero] at hpanic
    by_cases hfuel : s.given.length + 1 < fuel
    · rw [if_pos hfuel] at hpanic
      simp only [ne_eq, not_true_eq_false, if_false] at hpanic
      split at hpanic
      · split at hpanic <;> cases hpanic
      · cases hpanic
    · rw [if_neg hfuel] at hpanic
      cases hpanic

/-! ## Every event keeps the invariant

Writing into a block misses all headers; `malloc` makes a new block behind the last. -/

/-- The appended block, linked behind the last one. -/
theorem HeapInv.appended (h : HeapInv root s) {size : Nat} {h' : Heap σ}
    (hfit : s.heap.mallocTop + 20 + size < 4294967296) (happ : Appended pg size s.heap h') :
    HeapInv root ⟨h', s.given ++ [⟨s.heap.mallocTop + 20, size⟩]⟩ := by
  rcases h.last with ⟨init, last, hsplit, hlastEq⟩
  have hlastMem : last ∈ root :: s.given := by
    rw [hsplit]
    simp
  have hlastLe := h.last_le
  have hbefore : ∀ b ∈ init, b.header + 20 ≤ last.header := by
    intro b hb
    have hpair := h.pairwise
    rw [hsplit, List.pairwise_append] at hpair
    have hle := hpair.2.2 b hb last (by simp)
    omega
  have hlinked : Linked h'.mem (init ++ [last] ++ [⟨s.heap.mallocTop + 20, size⟩]) := by
    have hold := h.linked
    rw [hsplit] at hold
    rcases h.linked.inUse hlastMem with ⟨next, hlast⟩
    have hnew : InUse (initMblock s.heap.mem s.heap.mallocTop size) s.heap.mallocTop size null :=
      initMblock_inUse s.heap.mem (by omega) (by omega)
    rw [happ.mem_eq, hlastEq]
    refine hold.append ?_ ?_ ?_
    · -- the older headers lie below the last one and below `malloc_top`
      intro b hb
      have hle := hbefore b hb
      exact (initMblock_agree s.heap.mem (Or.inr (by omega))).trans
        (Mem.writeWord_agree _ _ (Or.inr (by omega)))
    · have hkept : InUse (initMblock s.heap.mem s.heap.mallocTop size) last.header last.size next :=
        hlast.of_agree (initMblock_agree s.heap.mem (Or.inr (by omega)))
      exact hkept.link h.top_lt
    · exact hnew.of_agree (Mem.writeWord_agree _ _ (Or.inl (by omega)))
  refine ⟨?_, ?_, ?_, ?_, ?_, ?_⟩
  · show Linked h'.mem (root :: s.given ++ [_])
    rw [hsplit]
    exact hlinked
  · show Extent.EndToEnd h'.rootMblock ((root :: s.given ++ [_]).map Block.extent) h'.mallocTop
    rw [List.map_append, happ.root_eq, happ.top_eq]
    refine h.tiles.append ⟨rfl, ?_⟩
    show s.heap.mallocTop + (20 + size) = s.heap.mallocTop + 20 + size
    omega
  · exact ⟨root :: s.given, _, rfl, happ.last_eq⟩
  · intro b hb
    rcases List.mem_append.mp (show b ∈ root :: s.given ++ [_] from hb) with hold | hnew
    · exact h.addr_eq b hold
    · rw [List.mem_singleton] at hnew
      subst hnew
      rfl
  · show 0 < h'.rootMblock
    rw [happ.root_eq]
    exact h.root_pos
  · show h'.mallocTop < 4294967296
    rw [happ.top_eq]
    exact hfit

/-- **The step.** -/
theorem HeapInv.step (h : HeapInv root s) {s' : HeapState σ} {e : HeapEvent}
    (hstep : HeapStep pg s e s') : HeapInv root s' := by
  cases hstep with
  | malloc hpos hfit hcall =>
    rcases malloc_spec h hpos hfit hcall with ⟨haddr, happ⟩
    rw [haddr]
    exact h.appended hfit happ
  | free addr => exact h
  | write byte hb hlo hhi =>
    -- the byte lies in a payload, and no header reads it
    refine ⟨h.linked.of_agree ?_, h.tiles, h.last, h.addr_eq, h.root_pos, h.top_lt⟩
    intro c hc
    have hout := h.payload_outside (List.mem_cons_of_mem _ hb) hc hlo hhi
    exact Mem.writeByte_agree _ byte hout

/-! ## The state `mm` leaves

The heap begins behind the kernel and its modules, with a block of one byte. -/

theorem mmFindHeap_ge (mb : MultibootInfo) (n heap : Nat) : heap ≤ mmFindHeap mb n heap := by
  have hmax : ∀ modEnd heap : Nat, heap ≤ if modEnd > heap then modEnd else heap := by
    intro modEnd heap
    split <;> omega
  induction n generalizing heap with
  | zero => exact Nat.le_refl _
  | succ n ih =>
    unfold mmFindHeap
    exact Nat.le_trans (hmax _ _) (ih _)

/-- The address `mm` finds for the heap, where it puts the root block. -/
def mmHeapStart (kernelVaddrEnd : Nat) (mb : MultibootInfo) : Nat :=
  mmFindHeap mb mb.modsCount kernelVaddrEnd

/-- The end of the area that `mm` reserves. -/
def mmReservedEnd (kernelVaddrEnd : Nat) (mb : MultibootInfo) : Nat :=
  u32 (sub32 (mmHeapStart kernelVaddrEnd mb) kernelBase + 0x100000)

/-- The block `mm` creates, of one byte. -/
def rootBlock (kernelVaddrEnd : Nat) (mb : MultibootInfo) : Block :=
  ⟨mmHeapStart kernelVaddrEnd mb + 20, 1⟩

/-- **What `mm` does**: it writes the root block at the heap's start, and leaves the global `heap`. -/
theorem mm_spec {fuel kernelVaddrEnd : Nat} {mb : MultibootInfo} {h₀ h : Heap σ}
    (hroot : mmHeapStart kernelVaddrEnd mb + 20 + 1 < 4294967296)
    (hmm : mm pg fuel kernelVaddrEnd mb h₀ = .ok h) :
    kernelVaddrEnd ≠ 0 ∧ h.mem = initMblock h₀.mem (mmHeapStart kernelVaddrEnd mb) 1
      ∧ h.rootMblock = mmHeapStart kernelVaddrEnd mb ∧ h.lastBlock = mmHeapStart kernelVaddrEnd mb
      ∧ h.mallocTop = mmHeapStart kernelVaddrEnd mb + 21 ∧ h.heap = h₀.heap := by
  have hinit : InUse (initMblock h₀.mem (mmHeapStart kernelVaddrEnd mb) 1)
      (mmHeapStart kernelVaddrEnd mb) 1 null := initMblock_inUse h₀.mem (by omega) (by decide)
  unfold mm at hmm
  rw [show mmFindHeap mb mb.modsCount kernelVaddrEnd = mmHeapStart kernelVaddrEnd mb from rfl] at hmm
  by_cases hzero : kernelVaddrEnd = 0
  · rw [if_pos hzero] at hmm
    cases hmm
  · rw [if_neg hzero] at hmm
    -- mapping the pages does not write to the heap
    cases hpages : mmPages pg fuel (u32 (mb.memUpper * 1024))
        (u32 (sub32 (mmHeapStart kernelVaddrEnd mb) kernelBase + 0x100000)) h₀.paging with
    | error e =>
      simp only [hpages] at hmm
      cases hmm
    | ok p =>
      simp only [hpages] at hmm
      cases hmm
      refine ⟨hzero, rfl, rfl, rfl, ?_, rfl⟩
      show u32 (mblockAddr (initMblock h₀.mem (mmHeapStart kernelVaddrEnd mb) 1) _
        + mblockSize (initMblock h₀.mem (mmHeapStart kernelVaddrEnd mb) 1) _) = _
      rw [hinit.addr, hinit.size_eq, u32_of_lt (by omega)]

/-- The loop over the kernel's pages ends: the addresses below `pAddrMax` do not wrap. What holds at the
start of each turn, and at the end, is `I`. -/
theorem mapKernel_returns {I : Nat → Nat → σ → Prop} {pAddrMax : Nat}
    (hpages : ∀ pAddr vAddr p, pAddr < pAddrMax → I pAddr vAddr p →
      ∃ p', pg.pageMap pAddr vAddr p = some p' ∧ I (u32 (pAddr + 0x1000)) (u32 (vAddr + 0x1000)) p')
    (hmax : pAddrMax ≤ 0xFFFFF000) (fuel : Nat) (pAddr vAddr : Nat) (p : σ) (hp : I pAddr vAddr p)
    (hfuel : pAddrMax ≤ pAddr + fuel * 0x1000) :
    ∃ p', mapKernel pg (fuel + 1) pAddr pAddrMax vAddr p = .ok p' ∧ ∃ pAddr vAddr, I pAddr vAddr p' := by
  induction fuel generalizing pAddr vAddr p with
  | zero => exact ⟨p, by rw [mapKernel, if_neg (by omega)], _, _, hp⟩
  | succ fuel ih =>
    by_cases hlt : pAddr < pAddrMax
    · rcases hpages pAddr vAddr p hlt hp with ⟨p', hmapped, hp'⟩
      have hnext := ih (u32 (pAddr + 0x1000)) (u32 (vAddr + 0x1000)) p' hp'
        (by rw [u32_of_lt (by omega)]; omega)
      rw [mapKernel, if_pos hlt]
      simp only [hmapped]
      exact hnext
    · exact ⟨p, by rw [mapKernel, if_neg hlt], _, _, hp⟩

theorem pageEnd_le {addr : Nat} (h : addr < 4294967296) :
    u32 (pageBase addr + 0x1000) ≤ 0xFFFFF000 := by
  rw [pageBase_eq h]
  unfold u32
  omega

/-- The loop that maps the kernel ends. -/
theorem mmPages_returns {fuel : Nat} (hfuel : 0x100000 ≤ fuel)
    (hsetup : ∀ size start fin p, ∃ p', pg.frameSetup size start fin p = some p')
    (hpages : ∀ pAddr vAddr p, ∃ p', pg.pageMap pAddr vAddr p = some p')
    (memSize : Nat) {reservedEnd : Nat} (hreserved : reservedEnd < 4294967296) (p : σ) :
    ∃ p', mmPages pg (fuel + 1) memSize reservedEnd p = .ok p' := by
  rcases hsetup memSize 0 reservedEnd p with ⟨p', hp'⟩
  have hmax := pageEnd_le hreserved
  have hturn : ∀ pAddr vAddr p, pAddr < u32 (pageBase reservedEnd + 0x1000) → True →
      ∃ p', pg.pageMap pAddr vAddr p = some p' ∧ True := by
    intro pAddr vAddr p _ _
    rcases hpages pAddr vAddr p with ⟨p', hmapped⟩
    exact ⟨p', hmapped, trivial⟩
  obtain ⟨p'', hp'', _⟩ := @mapKernel_returns σ pg (fun _ _ _ => True) _ hturn hmax fuel 0x100000 kernelBase
    p' trivial (Nat.le_trans hmax (by omega))
  refine ⟨p'', ?_⟩
  unfold mmPages
  rw [hp']
  exact hp''

theorem mm_of_pages {kernelVaddrEnd fuel : Nat} {mb : MultibootInfo} {h₀ : Heap σ}
    (hkernel : kernelVaddrEnd ≠ 0) {p : σ} (hpages : mmPages pg fuel (u32 (mb.memUpper * 1024))
      (mmReservedEnd kernelVaddrEnd mb) h₀.paging = .ok p) :
    ∃ h, mm pg fuel kernelVaddrEnd mb h₀ = .ok h := by
  unfold mmReservedEnd mmHeapStart at hpages
  unfold mm
  simp only [if_neg hkernel, hpages]
  exact ⟨_, rfl⟩

/-- `mm` returns if the paging does: the kernel's pages number less than `2 ^ 20`. -/
theorem mm_returns {kernelVaddrEnd fuel : Nat} (mb : MultibootInfo) (h₀ : Heap σ)
    (hkernel : kernelVaddrEnd ≠ 0) (hfuel : 0x100000 ≤ fuel)
    (hsetup : ∀ size start fin p, ∃ p', pg.frameSetup size start fin p = some p')
    (hpages : ∀ pAddr vAddr p, ∃ p', pg.pageMap pAddr vAddr p = some p') :
    ∃ h, mm pg (fuel + 1) kernelVaddrEnd mb h₀ = .ok h := by
  obtain ⟨p, hp⟩ := mmPages_returns hfuel hsetup hpages (u32 (mb.memUpper * 1024))
    (show mmReservedEnd kernelVaddrEnd mb < 4294967296 from u32_lt _) h₀.paging
  exact mm_of_pages hkernel hp

/-- **The beginning.** `mm` leaves one block. -/
theorem mm_inv {fuel kernelVaddrEnd : Nat} {mb : MultibootInfo} {h₀ h : Heap σ}
    (hroot : mmHeapStart kernelVaddrEnd mb + 20 + 1 < 4294967296)
    (hmm : mm pg fuel kernelVaddrEnd mb h₀ = .ok h) :
    HeapInv (rootBlock kernelVaddrEnd mb) ⟨h, []⟩ := by
  rcases mm_spec hroot hmm with ⟨hzero, hmem, hrootEq, hlastEq, htop, _⟩
  have hge : kernelVaddrEnd ≤ mmHeapStart kernelVaddrEnd mb := mmFindHeap_ge mb _ _
  refine ⟨⟨?_, trivial⟩, ⟨hrootEq.symm, ?_⟩, ⟨[], _, rfl, hlastEq⟩, ?_, ?_, ?_⟩
  · show InUse h.mem (mmHeapStart kernelVaddrEnd mb) 1 null
    rw [hmem]
    exact initMblock_inUse h₀.mem (by omega) (by decide)
  · show mmHeapStart kernelVaddrEnd mb + (20 + 1) = h.mallocTop
    omega
  · intro b hb
    rw [List.mem_singleton] at hb
    subst hb
    rfl
  · show 0 < h.rootMblock
    omega
  · show h.mallocTop < 4294967296
    omega

/-! ## Integrity

The invariant, and what the events of a run did, put together. -/

/-- **Heap integrity.** Start from the state `mm` leaves, and let callers allocate, free and write
inside their blocks in any order, no block reaching `2 ^ 32`. Over all blocks ever created, the root
first: headers and payloads tile the addresses from `root_mblock` to `malloc_top`, so that no two of
them meet; following `next` from `root_mblock` visits each header once, in increasing order;
`last_block` is the last of them; no block is a hole; and no `malloc` panics. -/
theorem heap_integrity {fuel kernelVaddrEnd : Nat} {mb : MultibootInfo} {h₀ h : Heap σ}
    (hroot : mmHeapStart kernelVaddrEnd mb + 20 + 1 < 4294967296)
    (hmm : mm pg fuel kernelVaddrEnd mb h₀ = .ok h)
    {tr : List (Transition (HeapState σ) HeapEvent)} {s : HeapState σ}
    (hrun : Run (HeapStep pg) ⟨h, []⟩ tr s) :
    let blocks := rootBlock kernelVaddrEnd mb :: s.given
    Extent.EndToEnd s.heap.rootMblock (blocks.flatMap Block.extents) s.heap.mallocTop
      ∧ (blocks.flatMap Block.extents).Pairwise Extent.Apart
      ∧ (∃ n, heapWalk n s.heap.mem s.heap.rootMblock = some (blocks.map Block.header))
      ∧ (blocks.map Block.header).Pairwise (· < ·)
      ∧ blocks.getLast?.map Block.header = some s.heap.lastBlock
      ∧ (∀ b ∈ blocks, mblockHole s.heap.mem b.header = 0
          ∧ mblockAddr s.heap.mem b.header = b.addr ∧ mblockSize s.heap.mem b.header = b.size)
      ∧ ∀ n size message, malloc pg n size s.heap ≠ .error (.panic message) := by
  intro blocks
  have hinv : HeapInv (rootBlock kernelVaddrEnd mb) s :=
    hrun.invariant (mm_inv hroot hmm) fun _ _ _ hpre hstep => hpre.step hstep
  -- header and payload of a block stand end to end, and so do the blocks
  have htiles : Extent.EndToEnd s.heap.rootMblock (blocks.flatMap Block.extents) s.heap.mallocTop :=
    hinv.tiles.flatMap fun b hb => b.tiles (hinv.addr_eq b hb)
  refine ⟨htiles, htiles.pairwise_apart, ?_, ?_, ?_, ?_, ?_⟩
  · refine ⟨blocks.length + 1, ?_⟩
    rw [hinv.first]
    exact heapWalk_linked hinv.linked fun b hb => hinv.header_ne_null hb
  · rw [List.pairwise_map]
    refine hinv.pairwise.imp ?_
    intro b c hbc
    omega
  · rcases hinv.last with ⟨init, b, hsplit, hlast⟩
    show (rootBlock kernelVaddrEnd mb :: s.given).getLast?.map Block.header = _
    rw [hsplit, hlast]
    simp
  · intro b hb
    rcases hinv.linked.inUse hb with ⟨next, hused⟩
    exact ⟨hused.hole, hused.addr.trans (hinv.addr_eq b hb).symm, hused.size_eq⟩
  · intro n size message hpanic
    exact malloc_ne_panic hinv hpanic

/-! ## A run

Two blocks. -/

/-- A paging that never runs out of frames. Its state is the first address that is not mapped. -/
def flatPaging : Paging Nat where
  frameSetup _ _ _ upper := some upper
  pageMap _ vAddr upper := some (max upper (vAddr + 0x1000))
  pageMapUntil limit upper :=
    some (u32 (pageBase limit + 0x1000), max upper (pageBase limit + 0x1000))

/-- With that paging `mm` returns, and so does a first call of `malloc`. -/
theorem flatPaging_malloc {kernelVaddrEnd size : Nat} (mb : MultibootInfo) (h₀ : Heap Nat)
    (hkernel : kernelVaddrEnd ≠ 0) (hpos : 0 < size)
    (hfit : mmHeapStart kernelVaddrEnd mb + 21 + 20 + size < 4294967296) :
    ∃ h h', mm flatPaging 0x100001 kernelVaddrEnd mb h₀ = .ok h
      ∧ HeapStep flatPaging ⟨h, []⟩ (.malloc size (mmHeapStart kernelVaddrEnd mb + 21 + 20))
        ⟨h', [⟨mmHeapStart kernelVaddrEnd mb + 21 + 20, size⟩]⟩ := by
  obtain ⟨h, hmm⟩ := @mm_returns _ flatPaging kernelVaddrEnd 0x100000 mb h₀ hkernel
    (Nat.le_refl _) (fun _ _ _ _ => ⟨_, rfl⟩) fun _ _ _ => ⟨_, rfl⟩
  have hroot : mmHeapStart kernelVaddrEnd mb + 20 + 1 < 4294967296 := by omega
  have hinv := mm_inv hroot hmm
  have htop : h.mallocTop = mmHeapStart kernelVaddrEnd mb + 21 := (mm_spec hroot hmm).2.2.2.2.1
  rw [← htop] at hfit ⊢
  obtain ⟨h', hcall⟩ := @malloc_returns _ flatPaging _ _ hinv 2 size hpos (show 0 + 1 < 2 by decide)
    hfit fun _ _ => ⟨_, rfl⟩
  exact ⟨h, h', hmm, HeapStep.malloc hpos hfit hcall⟩

/-- A kernel that ends at `0xC0001000`, without modules: one call of `malloc(5)`, and a write of its
last byte. -/
theorem heap_integrity_five :
    ∃ (h : Heap Nat) (tr : List (Transition (HeapState Nat) HeapEvent)) (s : HeapState Nat),
      mm flatPaging 0x100001 0xC0001000 ⟨0x8000, 0, fun _ => ⟨0, 0⟩⟩ ⟨fun _ => 0, 0, 0, 0, 0, 0⟩
          = .ok h
        ∧ Run (HeapStep flatPaging) ⟨h, []⟩ tr s ∧ tr.length = 2 ∧ s.given = [⟨0xC0001029, 5⟩]
        ∧ Extent.EndToEnd s.heap.rootMblock
          [⟨0xC0001000, 20⟩, ⟨0xC0001014, 1⟩, ⟨0xC0001015, 20⟩, ⟨0xC0001029, 5⟩] s.heap.mallocTop := by
  let mb : MultibootInfo := ⟨0x8000, 0, fun _ => ⟨0, 0⟩⟩
  have hstart : mmHeapStart 0xC0001000 mb = 0xC0001000 := rfl
  obtain ⟨h, h', hmm, hmalloc⟩ := @flatPaging_malloc 0xC0001000 5 mb ⟨fun _ => 0, 0, 0, 0, 0, 0⟩
    (by decide) (by decide) (by decide)
  rw [hstart] at hmalloc
  have hwrite := @HeapStep.write _ flatPaging ⟨h', [⟨0xC0001029, 5⟩]⟩ _ 0xC000102D 1
    List.mem_cons_self (by decide) (by decide)
  have hrun := (Run.nil.snoc hmalloc).snoc hwrite
  have htiles := (heap_integrity (by decide) hmm hrun).1
  simp only [rootBlock, hstart, List.flatMap_cons, List.flatMap_nil, Block.extents, Block.header,
    List.cons_append, List.nil_append] at htiles
  exact ⟨h, _, _, hmm, hrun, rfl, rfl, htiles⟩

end DiyOS
