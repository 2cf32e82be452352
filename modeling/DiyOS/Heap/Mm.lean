import DiyOS.Basic
import DiyOS.Lib.Memory

/-!
# The kernel heap (`kernel/memory/mm.c`)

The heap is a list of blocks threaded through the kernel's memory: a 20-byte header `mblock_t`
followed by the payload it describes. `malloc` first searches the list for a hole, and otherwise
appends a block at `malloc_top`, after asking `page_map_until` for pages. `free` does nothing.

The page and frame functions that `mm.c` calls are a parameter, `Paging σ`, over a state `σ` of
their own: they work on page tables and on the frame bitmap, which are not part of the heap.
-/

namespace DiyOS

open Word

def kernelBase : Nat := 0xC0000000

def mblockMagicValue : Nat := 0xF4283F30

/-- The functions of `frame.c` and `page.c` that `mm.c` calls, on their own state. `none` is a call
that does not return. -/
structure Paging (σ : Type) where
  frameSetup : Nat → Nat → Nat → σ → Option σ
  pageMap : Nat → Nat → σ → Option σ
  pageMapUntil : Nat → σ → Option (Nat × σ)

/-- The globals of `mm.c`, the memory that its pointers point into, and the paging state. -/
structure Heap (σ : Type) where
  mem : Mem
  mallocTop : Nat
  heap : Nat
  rootMblock : Nat
  lastBlock : Nat
  paging : σ

variable {σ : Type}

/-! ## `mblock_t`

Five packed words: `magic`, `hole`, `size`, `addr`, `next`. -/

def mblockMagic (m : Mem) (b : Nat) : Nat := m.readWord b
def mblockHole (m : Mem) (b : Nat) : Nat := m.readWord (b + 4)
def mblockSize (m : Mem) (b : Nat) : Nat := m.readWord (b + 8)
def mblockAddr (m : Mem) (b : Nat) : Nat := m.readWord (b + 12)
def mblockNext (m : Mem) (b : Nat) : Nat := m.readWord (b + 16)

/-- The five assignments by which `malloc` and `mm` fill in the header at `b = malloc_top`. -/
def initMblock (m : Mem) (b size : Nat) : Mem :=
  let m := m.writeWord (b + 4) 0
  let m := m.writeWord b mblockMagicValue
  let m := m.writeWord (b + 8) size
  let m := m.writeWord (b + 12) (u32 (b + 20))
  m.writeWord (b + 16) null

/-! ## Allocation -/

/-- `_split_hole`: the block it returns, and the memory it leaves. -/
def splitHole (m : Mem) (b size : Nat) : Nat × Mem :=
  if mblockHole m b = 0 then (null, m)
  else if sub32 (mblockSize m b) (u32 (size + 20)) < 20 then
    -- what would remain is too small for a header: use the entire hole
    (b, m.writeWord (b + 4) 0)
  else
    let newHole := u32 (mblockAddr m b + size)
    let m := m.writeWord newHole mblockMagicValue
    let m := m.writeWord (newHole + 4) 1
    let m := m.writeWord (newHole + 8) (sub32 (sub32 (mblockSize m b) 20) size)
    let m := m.writeWord (newHole + 12) (u32 (mblockAddr m b + size + 20))
    let m := m.writeWord (b + 4) 0
    let m := m.writeWord (b + 8) size
    let m := m.writeWord (newHole + 16) (mblockNext m b)
    (b, m.writeWord (b + 16) newHole)

/-- The loop of `_find_hole` from the block at `b` on. -/
def findHole : Nat → Mem → Nat → Nat → Except Halt (Nat × Mem)
  | 0, _, _, _ => .error .loops
  | fuel + 1, m, b, size =>
    if b = null then .ok (null, m)
    else if mblockMagic m b = mblockMagicValue then
      if mblockHole m b ≠ 0 ∧ size ≤ mblockSize m b then .ok (splitHole m b size)
      else findHole fuel m (mblockNext m b) size
    else .error (.panic "mblock with wrong magic")

/-- `expand`. -/
def expand (pg : Paging σ) (requestedSize : Nat) (s : Heap σ) : Option (Nat × σ) :=
  pg.pageMapUntil (u32 (s.mallocTop + requestedSize)) s.paging

/-- The part of `malloc` that appends a block at `malloc_top`. -/
def appendBlock (size : Nat) (s : Heap σ) : Nat × Heap σ :=
  let b := s.mallocTop
  let m := initMblock s.mem b size
  let m := m.writeWord (s.lastBlock + 16) b
  (mblockAddr m b,
    { s with mem := m, lastBlock := b, mallocTop := u32 (mblockAddr m b + mblockSize m b) })

/-- `malloc`: the address it returns and the heap it leaves. -/
def malloc (pg : Paging σ) (fuel size : Nat) (s : Heap σ) : Except Halt (Nat × Heap σ) :=
  if size = 0 then .ok (null, s)
  else
    match findHole fuel s.mem s.rootMblock size with
    | .error e => .error e
    | .ok (b, m) =>
      if b ≠ null then .ok (mblockAddr m b, { s with mem := m })
      else if u32 (s.mallocTop + size + 20) > s.heap then
        match expand pg size { s with mem := m } with
        | none => .error .loops
        | some (newHeap, p) => .ok (appendBlock size { s with mem := m, heap := newHeap, paging := p })
      else .ok (appendBlock size { s with mem := m })

/-- `free`: its body is commented out. -/
def free (_address : Nat) (s : Heap σ) : Heap σ := s

/-! ## `mm` -/

/-- `multiboot_module_t`, the fields that are read. -/
structure MultibootModule where
  modStart : Nat
  modEnd : Nat

/-- `multiboot_info_t`, the fields that `mm` reads; `mods` is the array at `mods_addr`. -/
structure MultibootInfo where
  memUpper : Nat
  modsCount : Nat
  mods : Nat → MultibootModule

/-- The loop of `mm` that finds the heap. `mod` is never advanced, so that every iteration looks at
the first module. -/
def mmFindHeap (mb : MultibootInfo) : Nat → Nat → Nat
  | 0, heap => heap
  | n + 1, heap =>
    let modEnd := sub32 (u32 (kernelBase + (mb.mods 0).modEnd)) 0x100000
    mmFindHeap mb n (if modEnd > heap then modEnd else heap)

/-- The loop of `mm` that maps the kernel's pages. -/
def mapKernel (pg : Paging σ) : Nat → Nat → Nat → Nat → σ → Except Halt σ
  | 0, _, _, _, _ => .error .loops
  | fuel + 1, pAddr, pAddrMax, vAddr, p =>
    if pAddr < pAddrMax then
      match pg.pageMap pAddr vAddr p with
      | none => .error .loops
      | some p => mapKernel pg fuel (u32 (pAddr + 0x1000)) pAddrMax (u32 (vAddr + 0x1000)) p
    else .ok p

/-- The calls of `mm` into the frame and page functions: `frame_setup`, then the kernel's pages. -/
def mmPages (pg : Paging σ) (fuel memSize reservedEnd : Nat) (p : σ) : Except Halt σ :=
  match pg.frameSetup memSize 0 reservedEnd p with
  | none => .error .loops
  | some p => mapKernel pg fuel 0x100000 (u32 (pageBase reservedEnd + 0x1000)) kernelBase p

/-- `mm`. Its local variable `heap` hides the global one, which keeps its value. -/
def mm (pg : Paging σ) (fuel kernelVaddrEnd : Nat) (mb : MultibootInfo) (s : Heap σ) :
    Except Halt (Heap σ) :=
  if kernelVaddrEnd = 0 then .error (.panic "ld script's invalid Kernel limit")
  else
    let heap := mmFindHeap mb mb.modsCount kernelVaddrEnd
    match mmPages pg fuel (u32 (mb.memUpper * 1024)) (u32 (sub32 heap kernelBase + 0x100000))
        s.paging with
    | .error e => .error e
    | .ok p =>
      let m := initMblock s.mem heap 1
      .ok
        { s with
          mem := m
          rootMblock := heap
          lastBlock := heap
          mallocTop := u32 (mblockAddr m heap + mblockSize m heap)
          paging := p }

/-! ## Headers in memory -/

/-- The header at `b` describes a block in use of `size` bytes, linked to `next`. -/
structure InUse (m : Mem) (b size next : Nat) : Prop where
  magic : mblockMagic m b = mblockMagicValue
  hole : mblockHole m b = 0
  size_eq : mblockSize m b = size
  addr : mblockAddr m b = b + 20
  next_eq : mblockNext m b = next

/-- A header reads the same in a memory with the same twenty bytes. -/
theorem InUse.of_agree {m m' : Mem} {b size next : Nat} (h : InUse m b size next)
    (hag : Mem.Agree m m' b 20) : InUse m' b size next where
  magic := (hag.readWord (show 0 + 4 ≤ 20 by decide)).trans h.magic
  hole := (hag.readWord (show 4 + 4 ≤ 20 by decide)).trans h.hole
  size_eq := (hag.readWord (show 8 + 4 ≤ 20 by decide)).trans h.size_eq
  addr := (hag.readWord (show 12 + 4 ≤ 20 by decide)).trans h.addr
  next_eq := (hag.readWord (show 16 + 4 ≤ 20 by decide)).trans h.next_eq

theorem initMblock_inUse (m : Mem) {b size : Nat} (hb : b + 20 < 4294967296)
    (hsize : size < 4294967296) : InUse (initMblock m b size) b size null := by
  have haddr : u32 (b + 20) < 4294967296 := u32_lt _
  unfold initMblock
  refine ⟨?_, ?_, ?_, ?_, ?_⟩
  · unfold mblockMagic
    rw [Mem.readWord_writeWord_of_disjoint _ _ (by omega),
      Mem.readWord_writeWord_of_disjoint _ _ (by omega),
      Mem.readWord_writeWord_of_disjoint _ _ (by omega), Mem.readWord_writeWord _ _ (by decide)]
  · unfold mblockHole
    rw [Mem.readWord_writeWord_of_disjoint _ _ (by omega),
      Mem.readWord_writeWord_of_disjoint _ _ (by omega),
      Mem.readWord_writeWord_of_disjoint _ _ (by omega),
      Mem.readWord_writeWord_of_disjoint _ _ (by omega), Mem.readWord_writeWord _ _ (by decide)]
  · unfold mblockSize
    rw [Mem.readWord_writeWord_of_disjoint _ _ (by omega),
      Mem.readWord_writeWord_of_disjoint _ _ (by omega), Mem.readWord_writeWord _ _ hsize]
  · unfold mblockAddr
    rw [Mem.readWord_writeWord_of_disjoint _ _ (by omega), Mem.readWord_writeWord _ _ haddr,
      u32_of_lt hb]
  · exact Mem.readWord_writeWord _ _ (by decide)

/-- Filling in a header writes no byte outside it. -/
theorem initMblock_agree (m : Mem) {b size a n : Nat} (h : b + 20 ≤ a ∨ a + n ≤ b) :
    Mem.Agree m (initMblock m b size) a n := by
  intro k hk
  unfold initMblock
  rw [Mem.writeWord_of_outside _ _ (by omega), Mem.writeWord_of_outside _ _ (by omega),
    Mem.writeWord_of_outside _ _ (by omega), Mem.writeWord_of_outside _ _ (by omega),
    Mem.writeWord_of_outside _ _ (by omega)]

/-- Linking the header at `b` to `next` leaves its other fields. -/
theorem InUse.link {m : Mem} {b size next next' : Nat} (h : InUse m b size next)
    (hnext : next' < 4294967296) : InUse (m.writeWord (b + 16) next') b size next' where
  magic := (Mem.readWord_writeWord_of_disjoint m next' (by omega)).trans h.magic
  hole := (Mem.readWord_writeWord_of_disjoint m next' (by omega)).trans h.hole
  size_eq := (Mem.readWord_writeWord_of_disjoint m next' (by omega)).trans h.size_eq
  addr := (Mem.readWord_writeWord_of_disjoint m next' (by omega)).trans h.addr
  next_eq := Mem.readWord_writeWord m _ hnext

end DiyOS
