import DiyOS.Basic
import DiyOS.Lib.Extent
import DiyOS.Lib.Memory

/-!
# Address spaces (`kernel/aspace.c`)

The sections of an address space stand in an array, which `aspace_section_create` replaces by a larger
one: it copies the old array byte by byte and writes the new section behind it.

* **`sections`** — the sections in an array.
* **`aspaceSectionCreate_sections`** — a section is appended, if the new array overlaps no old one.
-/

namespace DiyOS

open Word

/-- `sect_t`. -/
structure Sect where
  addr : Nat
  size : Nat
  flags : Nat
  offset : Nat
  deriving DecidableEq

/-- `aspace_t`, the fields that lead to the sections. -/
structure Aspace where
  sects : Nat
  sect : Nat

/-! ## Sections in memory

A `struct section` is four words, and the array has one behind the other. What is read of it depends on these
bytes alone. -/

def readSect (m : Mem) (p : Nat) : Sect :=
  ⟨m.readWord p, m.readWord (p + 4), m.readWord (p + 8), m.readWord (p + 12)⟩

def writeSect (m : Mem) (p : Nat) (s : Sect) : Mem :=
  (((m.writeWord p s.addr).writeWord (p + 4) s.size).writeWord (p + 8) s.flags).writeWord (p + 12)
    s.offset

/-- The `n` sections in the array at `p`. -/
def sections (m : Mem) (p n : Nat) : List Sect := (List.range n).map fun i => readSect m (p + 16 * i)

/-- A section is its sixteen bytes. -/
theorem readSect_congr {m m' : Mem} {p p' : Nat} (h : ∀ k < 16, m' (p' + k) = m (p + k)) :
    readSect m' p' = readSect m p := by
  have hword : ∀ j ≤ 12, m'.readWord (p' + j) = m.readWord (p + j) := by
    intro j hj
    refine Mem.readWord_congr fun k hk => ?_
    rw [Nat.add_assoc, Nat.add_assoc]
    exact h (j + k) (by omega)
  have h0 := hword 0 (by decide)
  rw [Nat.add_zero, Nat.add_zero] at h0
  unfold readSect
  rw [h0, hword 4 (by decide), hword 8 (by decide), hword 12 (by decide)]

theorem sections_congr {m m' : Mem} {p p' n : Nat} (h : ∀ k < 16 * n, m' (p' + k) = m (p + k)) :
    sections m' p' n = sections m p n := by
  refine List.map_congr_left fun i hi => readSect_congr fun k hk => ?_
  have hlt : i < n := List.mem_range.mp hi
  rw [Nat.add_assoc, Nat.add_assoc]
  exact h (16 * i + k) (by omega)

theorem sections_succ (m : Mem) (p n : Nat) :
    sections m p (n + 1) = sections m p n ++ [readSect m (p + 16 * n)] := by
  unfold sections
  rw [List.range_succ, List.map_append, List.map_singleton]

/-- The fields of a section are 32-bit words. -/
structure Sect.Words (s : Sect) : Prop where
  addr : s.addr < 4294967296
  size : s.size < 4294967296
  flags : s.flags < 4294967296
  offset : s.offset < 4294967296

/-- What was written is read. -/
theorem readSect_writeSect (m : Mem) (p : Nat) {s : Sect} (h : s.Words) :
    readSect (writeSect m p s) p = s := by
  unfold readSect writeSect
  -- each word is read behind the writes of the later ones
  rw [Mem.readWord_writeWord _ _ h.offset,
    Mem.readWord_writeWord_of_disjoint _ _ (show p + 12 + 4 ≤ p + 8 ∨ p + 8 + 4 ≤ p + 12 by omega),
    Mem.readWord_writeWord _ _ h.flags,
    Mem.readWord_writeWord_of_disjoint _ _ (show p + 12 + 4 ≤ p + 4 ∨ p + 4 + 4 ≤ p + 12 by omega),
    Mem.readWord_writeWord_of_disjoint _ _ (show p + 8 + 4 ≤ p + 4 ∨ p + 4 + 4 ≤ p + 8 by omega),
    Mem.readWord_writeWord _ _ h.size,
    Mem.readWord_writeWord_of_disjoint _ _ (show p + 12 + 4 ≤ p ∨ p + 4 ≤ p + 12 by omega),
    Mem.readWord_writeWord_of_disjoint _ _ (show p + 8 + 4 ≤ p ∨ p + 4 ≤ p + 8 by omega),
    Mem.readWord_writeWord_of_disjoint _ _ (show p + 4 + 4 ≤ p ∨ p + 4 ≤ p + 4 by omega),
    Mem.readWord_writeWord _ _ h.addr]

theorem writeSect_of_outside (m : Mem) {p a : Nat} (s : Sect) (h : a < p ∨ p + 16 ≤ a) :
    writeSect m p s a = m a := by
  unfold writeSect
  rw [Mem.writeWord_of_outside _ _ (by omega), Mem.writeWord_of_outside _ _ (by omega),
    Mem.writeWord_of_outside _ _ (by omega), Mem.writeWord_of_outside _ _ (by omega)]

/-! ## `memcpy`

Byte by byte, from the first on. The result is as expected if the two ranges do not overlap. -/

/-- `memcpy`, after `n` turns of its loop. -/
def memcpy (m : Mem) (src dst : Nat) : Nat → Mem
  | 0 => m
  | n + 1 => (memcpy m src dst n).writeByte (dst + n) (memcpy m src dst n (src + n))

/-- Only the destination is written. -/
theorem memcpy_of_outside (m : Mem) {src dst n a : Nat} (h : a < dst ∨ dst + n ≤ a) :
    memcpy m src dst n a = m a := by
  induction n with
  | zero => rfl
  | succ n ih =>
    rw [memcpy, Mem.writeByte_of_ne _ _ (by omega)]
    exact ih (by omega)

/-- Between ranges that do not overlap, every byte is copied. -/
theorem memcpy_apply (m : Mem) {src dst n : Nat} (h : Extent.Apart ⟨dst, n⟩ ⟨src, n⟩) {k : Nat}
    (hk : k < n) : memcpy m src dst n (dst + k) = m (src + k) := by
  induction n with
  | zero => omega
  | succ n ih =>
    unfold Extent.Apart Extent.fin at h ih
    rw [memcpy]
    by_cases hlast : k = n
    · rw [hlast, Mem.writeByte_self]
      exact memcpy_of_outside m (by simp only at h; omega)
    · rw [Mem.writeByte_of_ne _ _ (by omega)]
      exact ih (by simp only at h ⊢; omega) (by omega)

/-! ## `aspace_section_create`

The array grows by one section at a time. The old one is not freed: the call of `kfree` is commented out. -/

/-- The number of bytes that `aspace_section_create` asks `malloc` for. -/
def sectMallocSize (sects : Nat) : Nat := u32 ((sects + 1) * 16)

/-- `aspace_section_create`, with the array `s` that `malloc` gives; true where it gives none. -/
def aspaceSectionCreate (m : Mem) (s : Nat) (as : Aspace) (addr size flags offset : Nat) :
    Bool × Mem × Aspace :=
  if s = null then (true, m, as)
  else
    let m := if as.sect ≠ null then memcpy m as.sect s (u32 (16 * as.sects)) else m
    let m := writeSect m (u32 (s + 16 * as.sects)) ⟨addr, size, flags, offset⟩
    (false, m, ⟨u32 (as.sects + 1), s⟩)

/-- **A section is appended.** -/
theorem aspaceSectionCreate_sections (m : Mem) {s : Nat} {as : Aspace} {new : Sect}
    (hs : s ≠ null) (hnull : as.sect = null → as.sects = 0) (hnew : new.Words)
    (hfits : s + 16 * (as.sects + 1) ≤ 4294967296)
    (hapart : Extent.Apart ⟨s, 16 * (as.sects + 1)⟩ ⟨as.sect, 16 * as.sects⟩) :
    ∃ m', aspaceSectionCreate m s as new.addr new.size new.flags new.offset
        = (false, m', ⟨as.sects + 1, s⟩)
      ∧ sections m' s (as.sects + 1) = sections m as.sect as.sects ++ [new]
      ∧ ∀ a, a < s ∨ s + 16 * (as.sects + 1) ≤ a → m' a = m a := by
  have hslot : u32 (s + 16 * as.sects) = s + 16 * as.sects := u32_of_lt (by omega)
  have hbytes : u32 (16 * as.sects) = 16 * as.sects := u32_of_lt (by omega)
  have hcount : u32 (as.sects + 1) = as.sects + 1 := u32_of_lt (by omega)
  unfold aspaceSectionCreate
  rw [if_neg hs, hslot, hbytes, hcount]
  refine ⟨_, rfl, ?_, ?_⟩
  · rw [sections_succ, readSect_writeSect _ _ hnew]
    refine congrArg (· ++ [new]) (sections_congr fun k hk => ?_)
    rw [writeSect_of_outside _ _ (by omega)]
    by_cases hempty : as.sect = null
    · -- there is nothing to copy
      rw [hnull hempty] at hk
      omega
    · rw [if_pos hempty]
      refine memcpy_apply m ?_ hk
      unfold Extent.Apart Extent.fin at hapart ⊢
      simp only at hapart ⊢
      omega
  · intro a ha
    rw [writeSect_of_outside _ _ (by omega)]
    by_cases hempty : as.sect = null
    · rw [if_neg (not_not.mpr hempty)]
    · rw [if_pos hempty]
      exact memcpy_of_outside m (by omega)

end DiyOS
