import DiyOS.Elf.Load

/-!
# Programs that cannot be loaded (`load_elf_exec` in `kernel/elf.c`)

The loader ends at a header of type 2 or 5 and at an allocation that fails; the sections that it added
before stay.

* **`LoadEnd`** — how the loop over the headers ends.
* **`load_elf_exec_refuses_iff`** — when an unloadable program is refused.
-/

namespace DiyOS

open Word

/-- A DYNAMIC or SHLIB header. -/
def Forbidden (seg : ElfSeg) : Prop := seg.type = 2 ∨ seg.type = 5

/-- The program header `i` of the image. -/
def tableSeg (m : Mem) (image i : Nat) : ElfSeg := readElfSeg m (elfSegAt m image i)

theorem segSections_pos {seg : ElfSeg} (h : seg.type = 1) : 0 < (segSections seg).length := by
  unfold segSections
  rw [if_pos h]
  exact Nat.succ_pos _

theorem length_tableSections_succ (m : Mem) (image n : Nat) :
    (tableSections m image (n + 1)).length
      = (tableSections m image n).length + (segSections (tableSeg m image n)).length := by
  rw [tableSections_succ, List.length_append]
  rfl

/-- `load_elf_exec` returns 0 only for a valid header and a table without DYNAMIC and SHLIB; if it cannot
load the whole program, it returns another value and leaves the sections as they were. -/
def RefusesUnloadable (malloc : Nat → Nat) (fuel : Nat) (m : Mem) (image : Nat) (as : Aspace) : Prop :=
  ∃ r, loadElfExec malloc fuel m image as = .ok r
    ∧ (r.ret = 0 → elfHeaderOk (readElfFile m image)
      ∧ ∀ i < (readElfFile m image).numPh, ¬ Forbidden (tableSeg m image i))
    ∧ ((¬ elfHeaderOk (readElfFile m image)
        ∨ (∃ i < (readElfFile m image).numPh, Forbidden (tableSeg m image i))
        ∨ ∃ n, as.sects ≤ n ∧ n < as.sects + (tableSections m image (readElfFile m image).numPh).length
          ∧ malloc n = null) →
      r.ret ≠ 0 ∧ r.as.sects = as.sects
        ∧ sections r.mem r.as.sect r.as.sects = sections m as.sect as.sects)

/-! ## The end of the loop -/

section

variable {malloc : Nat → Nat} {m₀ m : Mem} {image : Nat} {as₀ as : Aspace} {added : List Sect} {i : Nat}

/-- Wherever `malloc` gives an array for the sections of the program, the array is a new one. -/
def SectMalloc (malloc : Nat → Nat) (m : Mem) (image : Nat) (as : Aspace) : Prop :=
  ∀ n, as.sects ≤ n → n < as.sects + (tableSections m image (readElfFile m image).numPh).length →
    malloc n ≠ null → FreshArray malloc m image as n

/-- The loader has added the sections `added`, each with an array that it got. -/
structure Adding (malloc : Nat → Nat) (m₀ : Mem) (image : Nat) (as₀ : Aspace) (added : List Sect)
    (m : Mem) (as : Aspace) : Prop where
  inv : LoadInv malloc m₀ image as₀ added m as
  mallocs : ∀ n, as₀.sects ≤ n → n < as.sects → malloc n ≠ null

/-- The loader is at the header `i`: none before it is forbidden, and their sections are added. -/
structure Passed (malloc : Nat → Nat) (m₀ : Mem) (image : Nat) (as₀ : Aspace) (i : Nat) (m : Mem)
    (as : Aspace) : Prop where
  allowed : ∀ j < i, ¬ Forbidden (tableSeg m₀ image j)
  adding : ∃ added, added.length = (tableSections m₀ image i).length
    ∧ Adding malloc m₀ image as₀ added m as

/-- How the loop ends, with the value that it returns. -/
inductive LoadEnd (malloc : Nat → Nat) (m₀ : Mem) (image : Nat) (as₀ : Aspace) :
    Nat → Mem → Aspace → Prop where
  | forbidden {i : Nat} {m : Mem} {as : Aspace} (hi : i < (readElfFile m₀ image).numPh)
      (hpassed : Passed malloc m₀ image as₀ i m as) (hseg : Forbidden (tableSeg m₀ image i)) :
      LoadEnd malloc m₀ image as₀ 0 m as
  | loaded {m : Mem} {as : Aspace}
      (hpassed : Passed malloc m₀ image as₀ (readElfFile m₀ image).numPh m as) :
      LoadEnd malloc m₀ image as₀ 0 m as
  | failed {i : Nat} {added : List Sect} {m : Mem} {as : Aspace} (hi : i < (readElfFile m₀ image).numPh)
      (hload : (tableSeg m₀ image i).type = 1) (hallowed : ∀ j < i, ¬ Forbidden (tableSeg m₀ image j))
      (hlength : added.length < (tableSections m₀ image (readElfFile m₀ image).numPh).length)
      (hadding : Adding malloc m₀ image as₀ added m as) (hnull : malloc as.sects = null) :
      LoadEnd malloc m₀ image as₀ 1 m as

/-- A section is added, or there is no array for it. -/
theorem Adding.create (h : Adding malloc m₀ image as₀ added m as) (himage : image + 52 ≤ 4294967296)
    (hmalloc : SectMalloc malloc m₀ image as₀)
    (hlength : added.length < (tableSections m₀ image (readElfFile m₀ image).numPh).length)
    {new : Sect} (hnew : new.Words) :
    (malloc as.sects = null
      ∧ aspaceSectionCreate m (malloc as.sects) as new.addr new.size new.flags new.offset = (true, m, as))
    ∨ ∃ m' as', aspaceSectionCreate m (malloc as.sects) as new.addr new.size new.flags new.offset
        = (false, m', as')
      ∧ Adding malloc m₀ image as₀ (added ++ [new]) m' as' := by
  have hsects := h.inv.sects
  by_cases hnull : malloc as.sects = null
  · left
    refine ⟨hnull, ?_⟩
    unfold aspaceSectionCreate
    rw [if_pos hnull]
  · right
    have hfresh := hmalloc as.sects (by omega) (by omega) hnull
    obtain ⟨m', hcreate, hinv⟩ := h.inv.create himage hfresh hnew
    refine ⟨m', _, hcreate, hinv, ?_⟩
    intro n hlo hhi
    by_cases hlast : n = as.sects
    · rw [hlast]
      exact hnull
    · exact h.mallocs n hlo (by simp only at hhi; omega)

theorem Passed.allowed_succ (h : Passed malloc m₀ image as₀ i m as)
    (hi : ¬ Forbidden (tableSeg m₀ image i)) : ∀ j < i + 1, ¬ Forbidden (tableSeg m₀ image j) := by
  intro j hj
  by_cases hlast : j = i
  · rw [hlast]
    exact hi
  · exact h.allowed j (by omega)

/-- A header that is not LOAD adds no section. -/
theorem Passed.skip (h : Passed malloc m₀ image as₀ i m as) (hi : ¬ Forbidden (tableSeg m₀ image i))
    (hother : (tableSeg m₀ image i).type ≠ 1) : Passed malloc m₀ image as₀ (i + 1) m as := by
  obtain ⟨added, hlength, hadding⟩ := h.adding
  refine ⟨h.allowed_succ hi, added, ?_, hadding⟩
  have hnone : segSections (tableSeg m₀ image i) = [] := by
    unfold segSections
    rw [if_neg hother]
  rw [hlength, length_tableSections_succ, hnone, List.length_nil, Nat.add_zero]

/-- **A LOAD segment** of the table: its sections are added, or an array is missing. -/
theorem Passed.loadSegment (h : Passed malloc m₀ image as₀ i m as) (himage : image + 52 ≤ 4294967296)
    (hmalloc : SectMalloc malloc m₀ image as₀) (hi : i < (readElfFile m₀ image).numPh) {seg : ElfSeg}
    (hseg : tableSeg m₀ image i = seg) (hload : seg.type = 1) :
    (∃ m' as', DiyOS.loadSegment malloc m (elfSegAt m₀ image i) as = (false, m', as')
      ∧ Passed malloc m₀ image as₀ (i + 1) m' as')
    ∨ ∃ m' as', DiyOS.loadSegment malloc m (elfSegAt m₀ image i) as = (true, m', as')
      ∧ LoadEnd malloc m₀ image as₀ 1 m' as' := by
  obtain ⟨added, hlength, hadding⟩ := h.adding
  have hflags := sectFlags_lt seg.flags
  have hwords : seg.virtAdr < 4294967296 ∧ seg.diskSize < 4294967296 ∧ seg.offset < 4294967296 := by
    rw [← hseg]
    exact ⟨Mem.readWord_lt m₀ _, Mem.readWord_lt m₀ _, Mem.readWord_lt m₀ _⟩
  have hallowed := h.allowed_succ (show ¬ Forbidden (tableSeg m₀ image i) by
    rw [hseg]
    unfold Forbidden
    omega)
  have hfailed : (tableSeg m₀ image i).type = 1 := by
    rw [hseg]
    exact hload
  -- the sections of this header are among those of the table
  have hsucc := length_tableSections_succ m₀ image i
  rw [hseg] at hsucc
  have hmono := tableSections_length_mono m₀ image (show i + 1 ≤ _ from hi)
  have hread := (hadding.inv.headers.seg hi).trans hseg
  unfold segSections at hsucc
  rw [if_pos hload, List.length_cons] at hsucc
  unfold DiyOS.loadSegment
  simp only [hread]
  rcases @Adding.create _ _ _ _ _ _ _ hadding himage hmalloc (by omega)
    ⟨seg.virtAdr, seg.diskSize, SF_LOAD ||| (seg.flags &&& 7), seg.offset⟩
    ⟨hwords.1, hwords.2.1, hflags.1, hwords.2.2⟩ with ⟨hnull, hcreate⟩ | ⟨m₁, as₁, hcreate, h₁⟩
  · -- no array for the part that is in the file
    right
    rw [hcreate]
    exact ⟨m, as, rfl, .failed hi hfailed h.allowed (by omega) hadding hnull⟩
  · -- the header is read again, and is still there
    have hread₁ := (h₁.inv.headers.seg hi).trans hseg
    have hlength₁ : (added ++ [(⟨seg.virtAdr, seg.diskSize, SF_LOAD ||| (seg.flags &&& 7), seg.offset⟩
        : Sect)]).length = added.length + 1 := List.length_append
    rw [hcreate]
    simp only [hread₁]
    by_cases hbss : seg.memSize > seg.diskSize
    · rw [if_pos hbss, List.length_singleton] at hsucc
      rw [if_pos hbss]
      rcases @Adding.create _ _ _ _ _ _ _ h₁ himage hmalloc (by omega)
        ⟨u32 (seg.virtAdr + seg.diskSize), sub32 seg.memSize seg.diskSize, SF_ZERO ||| (seg.flags &&& 7),
          seg.offset⟩
        ⟨u32_lt _, u32_lt _, hflags.2, hwords.2.2⟩ with ⟨hnull, hcreate₂⟩ | ⟨m₂, as₂, hcreate₂, h₂⟩
      · -- no array for the zeros, but the first section stays
        right
        exact ⟨m₁, as₁, hcreate₂, .failed hi hfailed h.allowed (by omega) h₁ hnull⟩
      · left
        refine ⟨m₂, as₂, hcreate₂, hallowed, _, ?_, h₂⟩
        rw [List.length_append, List.length_singleton]
        omega
    · rw [if_neg hbss, List.length_nil] at hsucc
      rw [if_neg hbss]
      left
      exact ⟨m₁, as₁, rfl, hallowed, _, by omega, h₁⟩

/-- **The loop** ends in one of these ways. -/
theorem Passed.loadSegments (himage : image + 52 ≤ 4294967296) (hmalloc : SectMalloc malloc m₀ image as₀)
    {fuel : Nat} (hi : i ≤ (readElfFile m₀ image).numPh) (hfuel : (readElfFile m₀ image).numPh < fuel + i)
    (h : Passed malloc m₀ image as₀ i m as) :
    ∃ ret m' as', DiyOS.loadSegments malloc image (image + (readElfFile m₀ image).phtabOffset) fuel i m as
        = .ok (ret, m', as')
      ∧ LoadEnd malloc m₀ image as₀ ret m' as' := by
  induction fuel generalizing i m as with
  | zero => omega
  | succ fuel ih =>
    obtain ⟨added, hlength, hadding⟩ := h.adding
    unfold DiyOS.loadSegments
    rw [hadding.inv.headers.file]
    by_cases hlast : i < (readElfFile m₀ image).numPh
    · rw [if_pos hlast]
      have hread : readElfSeg m (u32 (image + (readElfFile m₀ image).phtabOffset
          + (readElfFile m₀ image).phSize * i)) = tableSeg m₀ image i := hadding.inv.headers.seg hlast
      simp only [hread]
      -- a forbidden type returns 0, as the end of the table does; a failed `malloc` returns 1
      by_cases hforbidden : (tableSeg m₀ image i).type = 2 ∨ (tableSeg m₀ image i).type = 5
      · rw [if_pos hforbidden]
        exact ⟨0, m, as, rfl, .forbidden hlast h hforbidden⟩
      · rw [if_neg hforbidden]
        by_cases htype : (tableSeg m₀ image i).type = 1
        · rw [if_pos htype]
          rcases h.loadSegment himage hmalloc hlast rfl htype with
            ⟨m₁, as₁, hsegment, h₁⟩ | ⟨m₁, as₁, hsegment, hend⟩
          · change DiyOS.loadSegment malloc m (u32 _) as = _ at hsegment
            rw [hsegment]
            exact ih hlast (by omega) h₁
          · change DiyOS.loadSegment malloc m (u32 _) as = _ at hsegment
            rw [hsegment]
            exact ⟨1, m₁, as₁, rfl, hend⟩
        · rw [if_neg htype]
          exact ih hlast (by omega) (h.skip hforbidden htype)
    · rw [if_neg hlast]
      obtain rfl : i = (readElfFile m₀ image).numPh := Nat.le_antisymm hi (Nat.le_of_not_lt hlast)
      exact ⟨0, m, as, rfl, .loaded h⟩

/-- A table with a LOAD header before the header `i` has a section before it. -/
theorem tableSections_pos {j : Nat} (hj : j < i) (hload : (tableSeg m₀ image j).type = 1) :
    0 < (tableSections m₀ image i).length := by
  have hmono := tableSections_length_mono m₀ image (show j + 1 ≤ i from hj)
  have hpos := segSections_pos hload
  rw [length_tableSections_succ] at hmono
  omega

/-- The loader had an array for each section that it added. -/
theorem Adding.malloc_ne_null (h : Adding malloc m₀ image as₀ added m as) (hpos : 0 < added.length) :
    malloc as₀.sects ≠ null := by
  have hsects := h.inv.sects
  exact h.mallocs _ (Nat.le_refl _) (by omega)

/-- Behind a LOAD header that it passed, the loader got an array. -/
theorem Passed.malloc_ne_null (h : Passed malloc m₀ image as₀ i m as) {j : Nat} (hj : j < i)
    (hload : (tableSeg m₀ image j).type = 1) : malloc as₀.sects ≠ null := by
  obtain ⟨added, hlength, hadding⟩ := h.adding
  have hpos := tableSections_pos hj hload
  exact hadding.malloc_ne_null (by omega)

/-- A LOAD header with no forbidden one before it stands before a forbidden header. -/
theorem Passed.malloc_of_forbidden (h : Passed malloc m₀ image as₀ i m as)
    (hforbidden : Forbidden (tableSeg m₀ image i)) {j : Nat} (hload : (tableSeg m₀ image j).type = 1)
    (hallowed : ∀ k < j, ¬ Forbidden (tableSeg m₀ image k)) : malloc as₀.sects ≠ null := by
  refine h.malloc_ne_null ?_ hload
  by_contra hj
  have heq : i = j := by
    by_contra hne
    exact hallowed i (by omega) hforbidden
  subst heq
  unfold Forbidden at hforbidden
  omega

/-! ## When a program is refused -/

/-- A call for a valid file header ends in one of the ways of the loop. -/
theorem loadElfExec_ends {m : Mem} {as : Aspace} (hheader : elfHeaderOk (readElfFile m image))
    (himage : image + 52 ≤ 4294967296) (hspace : StartSpace image as) (hmalloc : SectMalloc malloc m image as)
    {fuel : Nat} (hfuel : (readElfFile m image).numPh < fuel) :
    ∃ ret m' as', loadElfExec malloc fuel m image as = .ok ⟨ret, some (readElfFile m image).entry, m', as'⟩
      ∧ LoadEnd malloc m image as ret m' as' := by
  have hstart : Passed malloc m image as 0 m as := by
    refine ⟨fun j hj => absurd hj (Nat.not_lt_zero j), [], rfl, ?_, ?_⟩
    · exact LoadInv.start malloc m image hspace
    · intro n hlo hhi
      omega
  obtain ⟨ret, m', as', hloop, hend⟩ := hstart.loadSegments himage hmalloc (Nat.zero_le _) hfuel
  refine ⟨ret, m', as', ?_, hend⟩
  unfold loadElfExec
  simp only [if_pos hheader, hloop]

/-- An invalid file header is refused before anything is added. -/
theorem refusesUnloadable_of_header {fuel : Nat} {m : Mem} {as : Aspace}
    (hheader : ¬ elfHeaderOk (readElfFile m image)) : RefusesUnloadable malloc fuel m image as := by
  refine ⟨⟨1, none, m, as⟩, ?_, ?_, ?_⟩
  · unfold loadElfExec
    simp only [if_neg hheader]
  · intro hret
    exact absurd hret Nat.one_ne_zero
  · intro _
    exact ⟨Nat.one_ne_zero, rfl, rfl⟩

/-- Refusal, for a call that gives `r` and a valid file header. -/
theorem refusesUnloadable_iff {fuel : Nat} {m : Mem} {as : Aspace} {r : Loaded}
    (hheader : elfHeaderOk (readElfFile m image)) (hcall : loadElfExec malloc fuel m image as = .ok r) :
    RefusesUnloadable malloc fuel m image as ↔
      (r.ret = 0 → ∀ i < (readElfFile m image).numPh, ¬ Forbidden (tableSeg m image i))
      ∧ ((∃ i < (readElfFile m image).numPh, Forbidden (tableSeg m image i))
          ∨ (∃ n, as.sects ≤ n ∧ n < as.sects + (tableSections m image (readElfFile m image).numPh).length
            ∧ malloc n = null) →
        r.ret ≠ 0 ∧ r.as.sects = as.sects
          ∧ sections r.mem r.as.sect r.as.sects = sections m as.sect as.sects) := by
  constructor
  · rintro ⟨r', hcall', hret, hfail⟩
    obtain rfl := Except.ok.inj (hcall.symm.trans hcall')
    exact ⟨fun h => (hret h).2, fun h => hfail (Or.inr h)⟩
  · intro h
    exact ⟨r, hcall, fun hret => ⟨hheader, h.1 hret⟩,
      fun hfail => h.2 (hfail.resolve_left (not_not.mpr hheader))⟩

/-- **Refusal.** `load_elf_exec` refuses an unloadable program exactly if the file header is not valid,
or the first section already gets no array, or there is nothing to refuse: no header of the table is
DYNAMIC or SHLIB, and every section gets its array. -/
theorem load_elf_exec_refuses_iff (malloc : Nat → Nat) (m : Mem) (image : Nat) (as : Aspace)
    (himage : image + 52 ≤ 4294967296) (hspace : StartSpace image as)
    (hmalloc : SectMalloc malloc m image as) {fuel : Nat} (hfuel : (readElfFile m image).numPh < fuel) :
    RefusesUnloadable malloc fuel m image as ↔
      ¬ elfHeaderOk (readElfFile m image)
      ∨ (malloc as.sects = null ∧ ∃ i < (readElfFile m image).numPh, (tableSeg m image i).type = 1
          ∧ ∀ j < i, ¬ Forbidden (tableSeg m image j))
      ∨ (∀ i < (readElfFile m image).numPh, ¬ Forbidden (tableSeg m image i))
        ∧ ∀ n, as.sects ≤ n → n < as.sects + (tableSections m image (readElfFile m image).numPh).length →
          malloc n ≠ null := by
  by_cases hheader : elfHeaderOk (readElfFile m image)
  · obtain ⟨ret, m', as', hcall, hend⟩ := loadElfExec_ends hheader himage hspace hmalloc hfuel
    rw [refusesUnloadable_iff hheader hcall]
    cases hend with
    | @forbidden i _ _ hi hpassed hseg =>
      -- 0 is returned for a forbidden header, and the LOAD headers before it had an array
      refine iff_of_false (fun h => (h.1 rfl) i hi hseg) ?_
      rintro (hbad | ⟨hnull, j, _, hload, hallowed⟩ | ⟨hallowed, _⟩)
      · exact hbad hheader
      · exact hpassed.malloc_of_forbidden hseg hload hallowed hnull
      · exact hallowed i hi hseg
    | loaded hpassed =>
      obtain ⟨added, hlength, hadding⟩ := hpassed.adding
      have hsects := hadding.inv.sects
      have hmallocs := hadding.mallocs
      rw [hsects, hlength] at hmallocs
      refine iff_of_true ⟨fun _ => hpassed.allowed, ?_⟩ (Or.inr (Or.inr ⟨hpassed.allowed, hmallocs⟩))
      rintro (⟨i, hi, hseg⟩ | ⟨n, hlo, hhi, hnull⟩)
      · exact absurd hseg (hpassed.allowed i hi)
      · exact absurd hnull (hmallocs n hlo hhi)
    | @failed i added _ _ hi hload hallowed hlength hadding hnull =>
      have hsects := hadding.inv.sects
      have hlist := hadding.inv.sections
      constructor
      · intro h
        -- the section list is as before, so the array of the first section is missing
        have hsame := (h.2 (Or.inr ⟨as'.sects, by omega, by omega, hnull⟩)).2.1
        simp only at hsame
        rw [hsame] at hnull
        exact Or.inr (Or.inl ⟨hnull, i, hi, hload, hallowed⟩)
      · rintro (hbad | ⟨hfirst, _⟩ | ⟨_, hmallocs⟩)
        · exact absurd hheader hbad
        · obtain rfl : added = [] := by
            by_contra hne
            exact hadding.malloc_ne_null (List.length_pos_of_ne_nil hne) hfirst
          rw [List.append_nil] at hlist
          exact ⟨fun hret => absurd hret Nat.one_ne_zero, fun _ => ⟨Nat.one_ne_zero, hsects, hlist⟩⟩
        · exact absurd hnull (hmallocs _ (by omega) (by omega))
  · exact iff_of_true (refusesUnloadable_of_header hheader) (Or.inl hheader)

end

/-! ## An image with a DYNAMIC segment -/

/-- The image at 4096, whose segment is DYNAMIC. -/
def dynamicMem : Mem := elfMem.writeByte 4148 2

theorem dynamicMem_file : readElfFile dynamicMem 4096
    = ⟨0x464C457F, 1, 1, 1, 2, 3, 1, 0x08048000, 52, 32, 1⟩ := by decide +kernel

theorem dynamicMem_seg : tableSeg dynamicMem 4096 0 = ⟨2, 84, 0x08048000, 16, 32, 5⟩ := by decide +kernel

/-- A program with a DYNAMIC segment is not refused: `load_elf_exec` returns 0. -/
theorem load_elf_exec_accepts_dynamic :
    ¬ RefusesUnloadable (fun n => 8192 + 256 * n) 2 dynamicMem 4096 ⟨0, null⟩ := by
  have hret : (loadElfExec (fun n => 8192 + 256 * n) 2 dynamicMem 4096 ⟨0, null⟩).toOption.map Loaded.ret
      = some 0 := by decide +kernel
  rintro ⟨r, hcall, hzero, _⟩
  rw [hcall] at hret
  have hforbidden := (hzero (Option.some.inj hret)).2 0 (by rw [dynamicMem_file]; decide)
  rw [dynamicMem_seg] at hforbidden
  exact hforbidden (Or.inl rfl)

/-- Where memory is exhausted from the start, the loadable program is refused. -/
theorem load_elf_exec_refuses_iff_null : RefusesUnloadable (fun _ => null) 2 elfMem 4096 ⟨0, null⟩ := by
  refine (load_elf_exec_refuses_iff (fun _ => null) elfMem 4096 ⟨0, null⟩ (by decide)
    ⟨fun _ => rfl, by decide, Or.inl (Nat.zero_le _)⟩ (fun _ _ _ hne => absurd rfl hne)
    (by rw [elfMem_file]; decide)).mpr (Or.inr (Or.inl ⟨rfl, 0, ?_, ?_, ?_⟩))
  · rw [elfMem_file]
    decide
  · show (readElfSeg elfMem (elfSegAt elfMem 4096 0)).type = 1
    rw [elfMem_seg]
  · exact fun j hj => absurd hj (Nat.not_lt_zero j)

end DiyOS
