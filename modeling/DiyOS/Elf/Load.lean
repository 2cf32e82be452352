import DiyOS.Elf.AddressSpace

/-!
# Loading a program (`load_elf_exec` in `kernel/elf.c`)

The loader goes through the program headers and adds to the address space one section for the part of
a segment that is in the file, and one for the zeros behind it.

* **`segSections`** — the sections of one segment, which lie end to end (`segSections_endToEnd`).
* **`LoadInv`** — the invariant of the loop, while no new array overlaps what is still read.
* **`load_elf_exec_sections`** — the sections are the old ones and those of the segments, in order.
-/

namespace DiyOS

open Word

/-! ## Headers

The file header and the program headers, as the loader reads them. -/

/-- `elf_file_t`, the fields that the loader reads. -/
structure ElfFile where
  magic : Nat
  bitness : Nat
  endian : Nat
  elfVer1 : Nat
  fileType : Nat
  machine : Nat
  elfVer2 : Nat
  entry : Nat
  phtabOffset : Nat
  phSize : Nat
  numPh : Nat
  deriving DecidableEq

def readElfFile (m : Mem) (image : Nat) : ElfFile where
  magic := m.readWord image
  bitness := (m (image + 4)).toNat
  endian := (m (image + 5)).toNat
  elfVer1 := (m (image + 6)).toNat
  fileType := m.readHalf (image + 16)
  machine := m.readHalf (image + 18)
  elfVer2 := m.readWord (image + 20)
  entry := m.readWord (image + 24)
  phtabOffset := m.readWord (image + 28)
  phSize := m.readHalf (image + 42)
  numPh := m.readHalf (image + 44)

/-- `elf_seg_t`, without the fields `phys_adr` and `align`. -/
structure ElfSeg where
  type : Nat
  offset : Nat
  virtAdr : Nat
  diskSize : Nat
  memSize : Nat
  flags : Nat
  deriving DecidableEq

def readElfSeg (m : Mem) (p : Nat) : ElfSeg where
  type := m.readWord p
  offset := m.readWord (p + 4)
  virtAdr := m.readWord (p + 8)
  diskSize := m.readWord (p + 16)
  memSize := m.readWord (p + 20)
  flags := m.readWord (p + 24)

def SF_ZERO : Nat := 0x10
def SF_LOAD : Nat := 0x08

/-- The header checks of `load_elf_exec`. -/
def elfHeaderOk (elf : ElfFile) : Prop :=
  elf.magic = 0x464C457F ∧ elf.bitness = 1 ∧ elf.endian = 1 ∧ elf.elfVer1 = 1 ∧ elf.fileType = 2
    ∧ elf.machine = 3 ∧ elf.elfVer2 = 1

instance (elf : ElfFile) : Decidable (elfHeaderOk elf) := by
  unfold elfHeaderOk
  infer_instance

/-- The address of the program header `i`; the table starts at `image + elf->phtab_offset`. -/
def elfSegAt (m : Mem) (image i : Nat) : Nat :=
  u32 (image + (readElfFile m image).phtabOffset + (readElfFile m image).phSize * i)

/-! ## `load_elf_exec`

The loop over the program headers; each segment of type 1 becomes sections of the address space. -/

/-- The case of a LOAD segment, whose header is at `p`; `malloc n` is the array that `malloc` gives
where the address space has `n` sections. -/
def loadSegment (malloc : Nat → Nat) (m : Mem) (p : Nat) (as : Aspace) : Bool × Mem × Aspace :=
  let seg := readElfSeg m p
  match aspaceSectionCreate m (malloc as.sects) as seg.virtAdr seg.diskSize
      (SF_LOAD ||| (seg.flags &&& 7)) seg.offset with
  | (true, m, as) => (true, m, as)
  | (false, m, as) =>
    -- the header is read again
    let seg := readElfSeg m p
    if seg.memSize > seg.diskSize then
      aspaceSectionCreate m (malloc as.sects) as (u32 (seg.virtAdr + seg.diskSize))
        (sub32 seg.memSize seg.diskSize) (SF_ZERO ||| (seg.flags &&& 7)) seg.offset
    else (false, m, as)

/-- The loop of `load_elf_exec` from the program header `i` on; `phtab` is the address of the table.
The result is the value returned. -/
def loadSegments (malloc : Nat → Nat) (image phtab : Nat) :
    Nat → Nat → Mem → Aspace → Except Halt (Nat × Mem × Aspace)
  | 0, _, _, _ => .error .loops
  | fuel + 1, i, m, as =>
    if i < (readElfFile m image).numPh then
      let p := u32 (phtab + (readElfFile m image).phSize * i)
      let type := (readElfSeg m p).type
      if type = 2 ∨ type = 5 then .ok (0, m, as)
      else if type = 1 then
        match loadSegment malloc m p as with
        | (true, m, as) => .ok (1, m, as)
        | (false, m, as) => loadSegments malloc image phtab fuel (i + 1) m as
      else loadSegments malloc image phtab fuel (i + 1) m as
    else .ok (0, m, as)

/-- What `load_elf_exec` returns and leaves; `entry` is what it stores. -/
structure Loaded where
  ret : Nat
  entry : Option Nat
  mem : Mem
  as : Aspace

def loadElfExec (malloc : Nat → Nat) (fuel : Nat) (m : Mem) (image : Nat) (as : Aspace) :
    Except Halt Loaded :=
  let elf := readElfFile m image
  if elfHeaderOk elf then
    match loadSegments malloc image (image + elf.phtabOffset) fuel 0 m as with
    | .error e => .error e
    | .ok (ret, m, as) => .ok ⟨ret, some elf.entry, m, as⟩
  else .ok ⟨1, none, m, as⟩

/-! ## The sections of a segment

One, or two where the segment is larger in memory than in the file. -/

/-- What a segment adds to the address space. -/
def segSections (seg : ElfSeg) : List Sect :=
  if seg.type = 1 then
    ⟨seg.virtAdr, seg.diskSize, SF_LOAD ||| (seg.flags &&& 7), seg.offset⟩ ::
      if seg.memSize > seg.diskSize then
        [⟨seg.virtAdr + seg.diskSize, seg.memSize - seg.diskSize, SF_ZERO ||| (seg.flags &&& 7),
          seg.offset⟩]
      else []
  else []

def Sect.extent (s : Sect) : Extent := ⟨s.addr, s.size⟩

/-- The sections of a LOAD segment tile its range. -/
theorem segSections_endToEnd {seg : ElfSeg} (h : seg.type = 1) :
    Extent.EndToEnd seg.virtAdr ((segSections seg).map Sect.extent)
      (seg.virtAdr + max seg.memSize seg.diskSize) := by
  unfold segSections
  rw [if_pos h]
  by_cases hbss : seg.memSize > seg.diskSize
  · rw [if_pos hbss]
    refine ⟨rfl, rfl, ?_⟩
    show seg.virtAdr + seg.diskSize + (seg.memSize - seg.diskSize) = _
    omega
  · rw [if_neg hbss]
    refine ⟨rfl, ?_⟩
    show seg.virtAdr + seg.diskSize = _
    omega

/-- The sections of the first `n` program headers. -/
def tableSections (m : Mem) (image n : Nat) : List Sect :=
  (List.range n).flatMap fun i => segSections (readElfSeg m (elfSegAt m image i))

/-! ## What the loader reads

The headers stay while the arrays are written, since `malloc` gives memory apart from the image. -/

/-- The bytes that the loader reads: the file header and the program headers. -/
def elfExtents (m : Mem) (image : Nat) : List Extent :=
  ⟨image, 52⟩ :: (List.range (readElfFile m image).numPh).map fun i => ⟨elfSegAt m image i, 32⟩

/-- `m'` holds the headers of `m`. -/
def SameHeaders (m m' : Mem) (image : Nat) : Prop :=
  ∀ x ∈ elfExtents m image, Mem.Agree m m' x.start x.size

section

variable {m m' m'' : Mem} {image i : Nat}

theorem SameHeaders.refl (m : Mem) (image : Nat) : SameHeaders m m image := fun _ _ => Mem.Agree.refl _ _ _

theorem SameHeaders.file (h : SameHeaders m m' image) : readElfFile m' image = readElfFile m image := by
  have hagree := h _ List.mem_cons_self
  have hbyte : ∀ k < 52, m' (image + k) = m (image + k) := hagree
  have hhalf : ∀ j < 50, m'.readHalf (image + j) = m.readHalf (image + j) := by
    intro j hj
    refine Mem.readHalf_congr fun k hk => ?_
    rw [Nat.add_assoc]
    exact hbyte (j + k) (by omega)
  have hword : ∀ j ≤ 48, m'.readWord (image + j) = m.readWord (image + j) :=
    fun j hj => hagree.readWord (show j + 4 ≤ 52 by omega)
  have hfirst := hword 0 (by decide)
  rw [Nat.add_zero] at hfirst
  unfold readElfFile
  rw [hfirst, hbyte 4 (by decide), hbyte 5 (by decide), hbyte 6 (by decide), hhalf 16 (by decide),
    hhalf 18 (by decide), hword 20 (by decide), hword 24 (by decide), hword 28 (by decide),
    hhalf 42 (by decide), hhalf 44 (by decide)]

theorem SameHeaders.seg (h : SameHeaders m m' image) (hi : i < (readElfFile m image).numPh) :
    readElfSeg m' (elfSegAt m image i) = readElfSeg m (elfSegAt m image i) := by
  have hagree := h ⟨elfSegAt m image i, 32⟩
    (List.mem_cons_of_mem _ (List.mem_map_of_mem (List.mem_range.mpr hi)))
  have hword : ∀ j ≤ 28, m'.readWord (elfSegAt m image i + j) = m.readWord (elfSegAt m image i + j) :=
    fun j hj => hagree.readWord (show j + 4 ≤ 32 by omega)
  have hfirst := hword 0 (by decide)
  rw [Nat.add_zero] at hfirst
  unfold readElfSeg
  rw [hfirst, hword 4 (by decide), hword 8 (by decide), hword 16 (by decide), hword 20 (by decide),
    hword 24 (by decide)]

/-- A change outside the headers. -/
theorem SameHeaders.trans_outside (h : SameHeaders m m' image) {b size : Nat}
    (hapart : ∀ x ∈ elfExtents m image, Extent.Apart ⟨b, size⟩ x)
    (hframe : ∀ a, a < b ∨ b + size ≤ a → m'' a = m' a) : SameHeaders m m'' image := by
  intro x hx
  refine (h x hx).trans fun k hk => hframe _ ?_
  have hsep := hapart x hx
  unfold Extent.Apart Extent.fin at hsep
  simp only at hsep
  omega

end

/-! ## The arrays

The invariant of the loop: the array holds what the headers so far make. -/

/-- The array of the first `n` sections, where the loader starts with `as`. -/
def sectArray (malloc : Nat → Nat) (as : Aspace) (n : Nat) : Nat :=
  if n = as.sects then as.sect else malloc (n - 1)

/-- `malloc` succeeds where there are `n` sections: the array lies in the address space, and overlaps
neither the headers nor the array that is copied. -/
structure FreshArray (malloc : Nat → Nat) (m : Mem) (image : Nat) (as : Aspace) (n : Nat) : Prop where
  ne_null : malloc n ≠ null
  fits : malloc n + sectMallocSize n ≤ 4294967296
  headers : ∀ x ∈ elfExtents m image, Extent.Apart ⟨malloc n, sectMallocSize n⟩ x
  array : Extent.Apart ⟨malloc n, sectMallocSize n⟩ ⟨sectArray malloc as n, 16 * n⟩

/-- The address space before the call: no sections and no array, or an array in memory, apart from the
file header. -/
structure StartSpace (image : Nat) (as : Aspace) : Prop where
  null : as.sect = null → as.sects = 0
  fits : as.sect + 16 * as.sects ≤ 4294967296
  header : Extent.Apart ⟨as.sect, 16 * as.sects⟩ ⟨image, 52⟩

/-- The loader has added the sections `added` to those of `as₀`. -/
structure LoadInv (malloc : Nat → Nat) (m₀ : Mem) (image : Nat) (as₀ : Aspace) (added : List Sect)
    (m : Mem) (as : Aspace) : Prop where
  sects : as.sects = as₀.sects + added.length
  sect : as.sect = sectArray malloc as₀ as.sects
  sections : sections m as.sect as.sects = DiyOS.sections m₀ as₀.sect as₀.sects ++ added
  headers : SameHeaders m₀ m image
  space : StartSpace image as

section

variable {malloc : Nat → Nat} {m₀ m : Mem} {image : Nat} {as₀ as : Aspace} {added : List Sect}

/-- Before the first header. -/
theorem LoadInv.start (malloc : Nat → Nat) (m : Mem) (image : Nat) (hspace : StartSpace image as) :
    LoadInv malloc m image as [] m as := by
  refine ⟨rfl, ?_, (List.append_nil _).symm, SameHeaders.refl m image, hspace⟩
  unfold sectArray
  rw [if_pos rfl]

/-- **A section is added** to an array that `malloc` gives. -/
theorem LoadInv.create (h : LoadInv malloc m₀ image as₀ added m as) (himage : image + 52 ≤ 4294967296)
    (hfresh : FreshArray malloc m₀ image as₀ as.sects) {new : Sect} (hnew : new.Words) :
    ∃ m', aspaceSectionCreate m (malloc as.sects) as new.addr new.size new.flags new.offset
        = (false, m', ⟨as.sects + 1, malloc as.sects⟩)
      ∧ LoadInv malloc m₀ image as₀ (added ++ [new]) m' ⟨as.sects + 1, malloc as.sects⟩ := by
  have hspace := h.space
  have hheader := hspace.header
  have hfits := hspace.fits
  unfold Extent.Apart Extent.fin at hheader
  simp only at hheader
  -- the old array and the file header share the address space, so the size does not wrap
  have hsize : sectMallocSize as.sects = 16 * (as.sects + 1) := by
    unfold sectMallocSize
    rw [u32_of_lt (by omega)]
    omega
  have hroom := hfresh.fits
  have harray := hfresh.array
  have hheaders := hfresh.headers
  rw [hsize] at hroom harray hheaders
  rw [← h.sect] at harray
  obtain ⟨m', hcreate, hsections, hframe⟩ := aspaceSectionCreate_sections m hfresh.ne_null hspace.null
    hnew hroom harray
  refine ⟨m', hcreate, ?_, ?_, ?_, h.headers.trans_outside hheaders hframe, ?_⟩
  · rw [List.length_append, List.length_singleton]
    show as.sects + 1 = _
    rw [h.sects, Nat.add_assoc]
  · show malloc as.sects = sectArray malloc as₀ (as.sects + 1)
    unfold sectArray
    rw [if_neg (by rw [h.sects]; omega), Nat.add_sub_cancel]
  · show DiyOS.sections m' (malloc as.sects) (as.sects + 1) = _
    rw [hsections, h.sections, List.append_assoc]
  · refine ⟨fun hnull => absurd hnull hfresh.ne_null, hroom, ?_⟩
    exact hheaders _ List.mem_cons_self

/-- Flags below the bit of `SF_LOAD` or `SF_ZERO`. -/
theorem sectFlags_lt (flags : Nat) :
    SF_LOAD ||| (flags &&& 7) < 4294967296 ∧ SF_ZERO ||| (flags &&& 7) < 4294967296 := by
  have hlow : flags &&& 7 < 2 ^ 5 := Nat.lt_of_le_of_lt Nat.and_le_right (by decide)
  have hload := Nat.or_lt_two_pow (show SF_LOAD < 2 ^ 5 by decide) hlow
  have hzero := Nat.or_lt_two_pow (show SF_ZERO < 2 ^ 5 by decide) hlow
  exact ⟨Nat.lt_trans hload (by decide), Nat.lt_trans hzero (by decide)⟩

/-- **A LOAD segment** adds its sections. -/
theorem LoadInv.loadSegment (h : LoadInv malloc m₀ image as₀ added m as)
    (himage : image + 52 ≤ 4294967296) {i : Nat} (hi : i < (readElfFile m₀ image).numPh) {seg : ElfSeg}
    (hseg : readElfSeg m₀ (elfSegAt m₀ image i) = seg) (htype : seg.type = 1)
    (hwrap : seg.virtAdr + max seg.memSize seg.diskSize ≤ 4294967296)
    (hfresh : ∀ n, as.sects ≤ n → n < as.sects + (segSections seg).length →
      FreshArray malloc m₀ image as₀ n) :
    ∃ m' as', DiyOS.loadSegment malloc m (elfSegAt m₀ image i) as = (false, m', as')
      ∧ LoadInv malloc m₀ image as₀ (added ++ segSections seg) m' as' := by
  have hword := fun p => Mem.readWord_lt m₀ p
  have hflags := sectFlags_lt seg.flags
  have hread := (h.headers.seg hi).trans hseg
  have hfields : seg.virtAdr < 4294967296 ∧ seg.diskSize < 4294967296 ∧ seg.memSize < 4294967296
      ∧ seg.offset < 4294967296 := by
    rw [← hseg]
    exact ⟨hword _, hword _, hword _, hword _⟩
  rcases hfields with ⟨hvirt, hdisk, hmem, hoffset⟩
  have hlength : 0 < (segSections seg).length := by
    unfold segSections
    rw [if_pos htype]
    exact Nat.succ_pos _
  -- the part that is loaded from the file
  obtain ⟨m₁, hfirst, h₁⟩ := @LoadInv.create _ _ _ _ _ _ _ h himage
    (hfresh as.sects (Nat.le_refl _) (by omega))
    ⟨seg.virtAdr, seg.diskSize, SF_LOAD ||| (seg.flags &&& 7), seg.offset⟩
    ⟨hvirt, hdisk, hflags.1, hoffset⟩
  -- the header is read again, and is still there
  have hread₁ := (h₁.headers.seg hi).trans hseg
  unfold DiyOS.loadSegment
  simp only [hread, hfirst, hread₁]
  by_cases hbss : seg.memSize > seg.diskSize
  · -- and the rest, which is zeroed
    have hsections : segSections seg = [⟨seg.virtAdr, seg.diskSize, SF_LOAD ||| (seg.flags &&& 7),
        seg.offset⟩, ⟨seg.virtAdr + seg.diskSize, seg.memSize - seg.diskSize,
          SF_ZERO ||| (seg.flags &&& 7), seg.offset⟩] := by
      unfold segSections
      rw [if_pos htype, if_pos hbss]
    rw [hsections] at hfresh ⊢
    obtain ⟨m₂, hsecond, h₂⟩ := @LoadInv.create _ _ _ _ _ _ _ h₁ himage
      (hfresh (as.sects + 1) (Nat.le_succ _) (Nat.lt_succ_self _))
      ⟨seg.virtAdr + seg.diskSize, seg.memSize - seg.diskSize, SF_ZERO ||| (seg.flags &&& 7),
        seg.offset⟩ ⟨by simp only; omega, by simp only; omega, hflags.2, hoffset⟩
    have hstart : u32 (seg.virtAdr + seg.diskSize) = seg.virtAdr + seg.diskSize :=
      u32_of_lt (by omega)
    have hrest : sub32 seg.memSize seg.diskSize = seg.memSize - seg.diskSize :=
      sub32_of_le (by omega) hmem
    rw [if_pos hbss, hstart, hrest]
    refine ⟨m₂, _, hsecond, ?_⟩
    rw [List.append_assoc] at h₂
    exact h₂
  · have hsections : segSections seg =
        [⟨seg.virtAdr, seg.diskSize, SF_LOAD ||| (seg.flags &&& 7), seg.offset⟩] := by
      unfold segSections
      rw [if_pos htype, if_neg hbss]
    rw [if_neg hbss, hsections]
    exact ⟨m₁, _, rfl, h₁⟩

theorem tableSections_succ (m : Mem) (image n : Nat) :
    tableSections m image (n + 1)
      = tableSections m image n ++ segSections (readElfSeg m (elfSegAt m image n)) := by
  unfold tableSections
  rw [List.range_succ, List.flatMap_append, List.flatMap_singleton]

/-- More headers give no fewer sections. -/
theorem tableSections_length_mono (m : Mem) (image : Nat) {n k : Nat} (h : n ≤ k) :
    (tableSections m image n).length ≤ (tableSections m image k).length := by
  induction h with
  | refl => exact Nat.le_refl _
  | step _ ih =>
    rw [tableSections_succ, List.length_append]
    exact Nat.le_add_right_of_le ih

/-- The program headers of an image: none is of type 2 or 5, and the range of a LOAD segment does not
wrap. -/
structure Loadable (m : Mem) (image : Nat) : Prop where
  header : elfHeaderOk (readElfFile m image)
  types : ∀ i < (readElfFile m image).numPh, (readElfSeg m (elfSegAt m image i)).type ≠ 2
    ∧ (readElfSeg m (elfSegAt m image i)).type ≠ 5
  ranges : ∀ i < (readElfFile m image).numPh, ∀ seg, readElfSeg m (elfSegAt m image i) = seg →
    seg.type = 1 → seg.virtAdr + max seg.memSize seg.diskSize ≤ 4294967296

/-- **The loop** goes through the table and adds the sections of every header that is left. -/
theorem LoadInv.loadSegments (himage : image + 52 ≤ 4294967296) (hload : Loadable m₀ image)
    (hfresh : ∀ n, as₀.sects ≤ n →
      n < as₀.sects + (tableSections m₀ image (readElfFile m₀ image).numPh).length →
      FreshArray malloc m₀ image as₀ n) {fuel i : Nat} (hi : i ≤ (readElfFile m₀ image).numPh)
    (hfuel : (readElfFile m₀ image).numPh < fuel + i)
    (h : LoadInv malloc m₀ image as₀ (tableSections m₀ image i) m as) :
    ∃ m' as', DiyOS.loadSegments malloc image (image + (readElfFile m₀ image).phtabOffset) fuel i m as
        = .ok (0, m', as')
      ∧ LoadInv malloc m₀ image as₀ (tableSections m₀ image (readElfFile m₀ image).numPh) m' as' := by
  induction fuel generalizing i m as with
  | zero => omega
  | succ fuel ih =>
    unfold DiyOS.loadSegments
    rw [h.headers.file]
    by_cases hlast : i < (readElfFile m₀ image).numPh
    · rw [if_pos hlast]
      have hread := h.headers.seg hlast
      have hsucc := tableSections_succ m₀ image i
      have hmono := tableSections_length_mono m₀ image (show i + 1 ≤ _ from hlast)
      rw [hsucc, List.length_append] at hmono
      have htypes := hload.types i hlast
      generalize hseg : readElfSeg m₀ (elfSegAt m₀ image i) = seg at hread hsucc hmono htypes
      have hp : u32 (image + (readElfFile m₀ image).phtabOffset + (readElfFile m₀ image).phSize * i)
          = elfSegAt m₀ image i := rfl
      simp only [hp, hread]
      rw [if_neg fun hor => hor.elim htypes.1 htypes.2]
      by_cases htype : seg.type = 1
      · rw [if_pos htype]
        obtain ⟨m₁, as₁, hsegment, h₁⟩ := h.loadSegment himage hlast hseg htype
          (hload.ranges i hlast seg hseg htype) (by
            intro n hlo hhi
            rw [h.sects] at hlo hhi
            exact hfresh n (by omega) (by omega))
        rw [hsegment]
        rw [← hsucc] at h₁
        exact ih hlast (by omega) h₁
      · -- another type adds nothing
        have hnone : segSections seg = [] := by
          unfold segSections
          rw [if_neg htype]
        rw [hnone, List.append_nil] at hsucc
        rw [if_neg htype]
        rw [← hsucc] at h
        exact ih hlast (by omega) h
    · rw [if_neg hlast]
      obtain rfl : i = (readElfFile m₀ image).numPh := Nat.le_antisymm hi (Nat.le_of_not_lt hlast)
      exact ⟨m, as, rfl, h⟩

/-- **Loading a program.** For an image that passes the checks, with every `malloc` succeeding,
`load_elf_exec` returns 0 and stores the entry point, and the sections of the address space are the old
ones followed by those of the segments in the order of their headers, which tile the range of each LOAD
segment. -/
theorem load_elf_exec_sections {m : Mem} (himage : image + 52 ≤ 4294967296)
    (hload : Loadable m image) (hspace : StartSpace image as)
    (hfresh : ∀ n, as.sects ≤ n →
      n < as.sects + (tableSections m image (readElfFile m image).numPh).length →
      FreshArray malloc m image as n) {fuel : Nat} (hfuel : (readElfFile m image).numPh < fuel) :
    ∃ m' as', loadElfExec malloc fuel m image as
        = .ok ⟨0, some (readElfFile m image).entry, m', as'⟩
      ∧ as'.sects = as.sects + (tableSections m image (readElfFile m image).numPh).length
      ∧ sections m' as'.sect as'.sects = sections m as.sect as.sects
          ++ (List.range (readElfFile m image).numPh).flatMap
            (fun i => segSections (readElfSeg m (elfSegAt m image i)))
      ∧ ∀ i < (readElfFile m image).numPh, ∀ seg, readElfSeg m (elfSegAt m image i) = seg →
        seg.type = 1 → Extent.EndToEnd seg.virtAdr ((segSections seg).map Sect.extent)
          (seg.virtAdr + max seg.memSize seg.diskSize) := by
  obtain ⟨m', as', hloop, hend⟩ := @LoadInv.loadSegments malloc m m image as as himage hload hfresh fuel 0
    (Nat.zero_le _) hfuel (LoadInv.start malloc m image hspace)
  refine ⟨m', as', ?_, hend.sects, hend.sections, fun _ _ _ _ htype => segSections_endToEnd htype⟩
  unfold loadElfExec
  simp only [if_pos hload.header, hloop]

end

/-! ## An image with one segment -/

/-- A file header, and the header of a LOAD segment of 16 bytes in the file and 32 in memory. -/
def elfBytes : List UInt8 :=
  [0x7F, 0x45, 0x4C, 0x46, 1, 1, 1, 0, 0, 0, 0, 0, 0, 0, 0, 0, 2, 0, 3, 0, 1, 0, 0, 0,
   0x00, 0x80, 0x04, 0x08, 52, 0, 0, 0, 0, 0, 0, 0, 0, 0, 0, 0, 52, 0, 32, 0, 1, 0, 0, 0, 0, 0, 0, 0,
   1, 0, 0, 0, 84, 0, 0, 0, 0x00, 0x80, 0x04, 0x08, 0, 0, 0, 0, 16, 0, 0, 0, 32, 0, 0, 0, 5, 0, 0, 0,
   0, 0, 0, 0]

/-- The image at 4096. -/
def elfMem : Mem := fun a => if a < 4096 then 0 else elfBytes.getD (a - 4096) 0

theorem elfMem_file : readElfFile elfMem 4096
    = ⟨0x464C457F, 1, 1, 1, 2, 3, 1, 0x08048000, 52, 32, 1⟩ := by decide +kernel

theorem elfMem_seg : readElfSeg elfMem (elfSegAt elfMem 4096 0)
    = ⟨1, 84, 0x08048000, 16, 32, 5⟩ := by decide +kernel

/-- The file is an image that can be loaded. -/
theorem elfMem_loadable : Loadable elfMem 4096 := by
  refine ⟨?_, ?_, ?_⟩
  · rw [elfMem_file]
    decide
  · rw [elfMem_file]
    intro i hi
    obtain rfl : i = 0 := Nat.lt_one_iff.mp hi
    rw [elfMem_seg]
    decide
  · rw [elfMem_file]
    intro i hi seg hseg _
    obtain rfl : i = 0 := Nat.lt_one_iff.mp hi
    rw [elfMem_seg] at hseg
    subst hseg
    decide

/-- The segment is loaded into an address space without sections; the arrays stand from 8192 on. -/
theorem load_elf_exec_sections_one :
    ∃ m' as', loadElfExec (fun n => 8192 + 256 * n) 2 elfMem 4096 ⟨0, null⟩
        = .ok ⟨0, some 0x08048000, m', as'⟩
      ∧ sections m' as'.sect as'.sects
        = [⟨0x08048000, 16, 0x0D, 84⟩, ⟨0x08048010, 16, 0x15, 84⟩] := by
  have hextents : ∀ x ∈ elfExtents elfMem 4096, x = ⟨4096, 52⟩ ∨ x = ⟨4148, 32⟩ := by
    unfold elfExtents
    rw [elfMem_file]
    have hat : elfSegAt elfMem 4096 0 = 4148 := by decide +kernel
    simp [hat]
  have hfresh : ∀ n < 2, FreshArray (fun n => 8192 + 256 * n) elfMem 4096 ⟨0, null⟩ n := by
    intro n hn
    -- the `n`-th array stands at `8192 + 256 * n`, behind the image
    have hsize : sectMallocSize n = 16 * (n + 1) := by
      unfold sectMallocSize
      rw [u32_of_lt (by omega), Nat.mul_comm]
    refine ⟨?_, ?_, ?_, ?_⟩
    · unfold null
      omega
    · rw [hsize]
      omega
    · intro x hx
      unfold Extent.Apart Extent.fin
      rcases hextents x hx with rfl | rfl
      · simp only
        omega
      · simp only
        omega
    · unfold sectArray Extent.Apart Extent.fin null
      rw [hsize]
      split
      · simp only
        omega
      · simp only
        omega
  have hcount : (tableSections elfMem 4096 (readElfFile elfMem 4096).numPh).length = 2 := by
    rw [elfMem_file]
    unfold tableSections
    simp only [List.range_one, List.flatMap_singleton, elfMem_seg]
    rfl
  obtain ⟨m', as', hcall, _, hsections, _⟩ := @load_elf_exec_sections (fun n => 8192 + 256 * n) 4096
    ⟨0, null⟩ elfMem (by decide) elfMem_loadable
    ⟨fun _ => rfl, by decide, Or.inl (Nat.zero_le _)⟩ (by
      intro n _ hn
      rw [hcount] at hn
      exact hfresh n hn) 2 (by rw [elfMem_file]; decide)
  refine ⟨m', as', ?_, ?_⟩
  · rw [elfMem_file] at hcall
    exact hcall
  · rw [hsections, elfMem_file]
    simp only [List.range_one, List.flatMap_singleton, elfMem_seg]
    rfl

end DiyOS
