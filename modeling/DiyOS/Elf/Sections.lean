import DiyOS.Lib.Memory
import DiyOS.Lib.Word
import Mathlib.Data.List.Basic

/-!
# Sections of an image (`elf32_get_sections` in `kernel/elf.c`)

The section headers of an image, counted and looked up by their type and, if the caller asks for it, their
flags. A section of the type with other flags ends both scans.

* **`elf32GetSections`**, **`elf32GetSectionsI`** — the two scans.
* **`sections_agree_iff`** — they agree exactly if the sections of the type all have the flags, or none of
  them has.
* **`elfObj`** — a small object file, on which the modules below run too.
-/

namespace DiyOS

open Word

/-! ## Section headers

The table follows from three fields of the file header. -/

def SHT_SYMTAB : Nat := 2
def SHT_STRTAB : Nat := 3

/-- `elf_file_t`, the fields that lead to the section headers. -/
structure ElfShtab where
  shtabOffset : Nat
  shSize : Nat
  numSects : Nat

def readElfShtab (m : Mem) (image : Nat) : ElfShtab where
  shtabOffset := m.readWord (u32 (image + 32))
  shSize := m.readHalf (u32 (image + 46))
  numSects := m.readHalf (u32 (image + 48))

/-- `elf_sect_t`, the fields that are read. -/
structure ElfSect where
  type : Nat
  flags : Nat
  offset : Nat
  size : Nat
  link : Nat
  entSize : Nat
  deriving DecidableEq

def readElfSect (m : Mem) (p : Nat) : ElfSect where
  type := m.readWord (u32 (p + 4))
  flags := m.readWord (u32 (p + 8))
  offset := m.readWord (u32 (p + 16))
  size := m.readWord (u32 (p + 20))
  link := m.readWord (u32 (p + 24))
  entSize := m.readWord (u32 (p + 36))

/-- The address of the section header `i`. -/
def elfSectAt (m : Mem) (image i : Nat) : Nat :=
  u32 (image + (readElfShtab m image).shtabOffset + (readElfShtab m image).shSize * i)

/-! ## The source's functions

Two loops over the headers: one counts the sections of a kind, the other looks for the one with a number. Both
stop at a section of the type with other flags. -/

/-- The loop of `elf32_get_sections` over the sections that are left. -/
def elf32GetSectionsLoop (m : Mem) (image type : Nat) (flags : Int) : List Nat → Nat → Nat
  | [], retval => retval
  | i :: is, retval =>
    let tmp := readElfSect m (elfSectAt m image i)
    if tmp.type = type then
      if flags ≥ 0 ∧ tmp.flags ≠ flags.toNat then 0
      else elf32GetSectionsLoop m image type flags is (retval + 1)
    else elf32GetSectionsLoop m image type flags is retval

def elf32GetSections (m : Mem) (image type : Nat) (flags : Int) : Nat :=
  elf32GetSectionsLoop m image type flags (List.range (readElfShtab m image).numSects) 0

/-- The loop of `elf32_get_sections_i` over the sections that are left. -/
def elf32GetSectionsILoop (m : Mem) (image type : Nat) (flags : Int) : List Nat → Nat → Option Nat
  | [], _ => none
  | i :: is, index =>
    let tmp := readElfSect m (elfSectAt m image i)
    if tmp.type = type then
      if flags ≥ 0 ∧ tmp.flags ≠ flags.toNat then none
      else if index = 0 then some (elfSectAt m image i)
      else elf32GetSectionsILoop m image type flags is (index - 1)
    else elf32GetSectionsILoop m image type flags is index

/-- `elf32_get_sections_i`; the section that it stores where it returns 1. -/
def elf32GetSectionsI (m : Mem) (image index type : Nat) (flags : Int) : Option Nat :=
  elf32GetSectionsILoop m image type flags (List.range (readElfShtab m image).numSects) index

/-- `elf32_get_section_i`; the section that it stores where it returns 1. -/
def elf32GetSectionI (m : Mem) (image index : Nat) : Option Nat :=
  if (readElfShtab m image).numSects < index then none else some (elfSectAt m image index)

/-! ## The sections that are asked for

Those with the type and the flags, in order. The two functions agree about them if no section of the type has
other flags. -/

/-- The section is of the type and has the flags, if they are asked for. -/
def ElfSect.Matches (s : ElfSect) (type : Nat) (flags : Int) : Prop :=
  s.type = type ∧ (flags ≥ 0 → s.flags = flags.toNat)

instance (s : ElfSect) (type : Nat) (flags : Int) : Decidable (s.Matches type flags) :=
  inferInstanceAs (Decidable (_ ∧ _))

/-- The section `i` matches. -/
def MatchesAt (m : Mem) (image type : Nat) (flags : Int) (i : Nat) : Prop :=
  (readElfSect m (elfSectAt m image i)).Matches type flags

instance (m : Mem) (image type : Nat) (flags : Int) : DecidablePred (MatchesAt m image type flags) :=
  fun _ => inferInstanceAs (Decidable (ElfSect.Matches _ _ _))

/-- The sections of the image that match, in table order. -/
def matchingSections (m : Mem) (image type : Nat) (flags : Int) : List Nat :=
  ((List.range (readElfShtab m image).numSects).filter (MatchesAt m image type flags)).map (elfSectAt m image)

section

variable {m : Mem} {image type : Nat} {flags : Int} {is : List Nat}

/-- One turn of a scan, with `ends` where a section of the type does not match, `found` where it does, and
`skip` where it is of another type. -/
theorem scan_turn {α : Type} (i : Nat) (ends found skip : α) :
    (if (readElfSect m (elfSectAt m image i)).type = type then
        if flags ≥ 0 ∧ (readElfSect m (elfSectAt m image i)).flags ≠ flags.toNat then ends else found
      else skip)
      = if MatchesAt m image type flags i then found
        else if (readElfSect m (elfSectAt m image i)).type = type then ends
        else skip := by
  by_cases htype : (readElfSect m (elfSectAt m image i)).type = type
  · have hends : (flags ≥ 0 ∧ (readElfSect m (elfSectAt m image i)).flags ≠ flags.toNat)
        ↔ ¬ MatchesAt m image type flags i := by
      unfold MatchesAt ElfSect.Matches
      simp [htype]
    by_cases hmatch : MatchesAt m image type flags i
    · rw [if_pos htype, if_neg fun h => hends.mp h hmatch, if_pos hmatch]
    · rw [if_pos htype, if_pos (hends.mpr hmatch), if_neg hmatch, if_pos htype]
  · have hmatch : ¬ MatchesAt m image type flags i := fun h => htype h.1
    rw [if_neg htype, if_neg hmatch, if_neg htype]

theorem elf32GetSectionsLoop_cons (i : Nat) (is : List Nat) (retval : Nat) :
    elf32GetSectionsLoop m image type flags (i :: is) retval
      = if MatchesAt m image type flags i then elf32GetSectionsLoop m image type flags is (retval + 1)
        else if (readElfSect m (elfSectAt m image i)).type = type then 0
        else elf32GetSectionsLoop m image type flags is retval := by
  rw [elf32GetSectionsLoop]
  exact scan_turn i _ _ _

theorem elf32GetSectionsILoop_cons (i : Nat) (is : List Nat) (index : Nat) :
    elf32GetSectionsILoop m image type flags (i :: is) index
      = if MatchesAt m image type flags i then
          if index = 0 then some (elfSectAt m image i)
          else elf32GetSectionsILoop m image type flags is (index - 1)
        else if (readElfSect m (elfSectAt m image i)).type = type then none
        else elf32GetSectionsILoop m image type flags is index := by
  rw [elf32GetSectionsILoop]
  exact scan_turn i _ _ _

/-- Every section of the type among `is` matches. -/
def AllMatch (m : Mem) (image type : Nat) (flags : Int) (is : List Nat) : Prop :=
  ∀ i ∈ is, (readElfSect m (elfSectAt m image i)).type = type → MatchesAt m image type flags i

/-- Both scans over sections that all match. -/
theorem scans_of_allMatch (h : AllMatch m image type flags is) (retval index : Nat) :
    elf32GetSectionsLoop m image type flags is retval
        = retval + (is.filter (MatchesAt m image type flags)).length
      ∧ elf32GetSectionsILoop m image type flags is index
        = ((is.filter (MatchesAt m image type flags)).map (elfSectAt m image))[index]? := by
  induction is generalizing retval index with
  | nil => exact ⟨rfl, rfl⟩
  | cons i is ih =>
    obtain ⟨hi, his⟩ := List.forall_mem_cons.mp h
    rw [elf32GetSectionsLoop_cons, elf32GetSectionsILoop_cons]
    by_cases hmatch : MatchesAt m image type flags i
    · rw [if_pos hmatch, if_pos hmatch, List.filter_cons_of_pos (by simpa using hmatch), (ih his _ index).1,
        List.length_cons, List.map_cons]
      refine ⟨by omega, ?_⟩
      cases index with
      | zero => rfl
      | succ index => exact (ih his 0 index).2
    · have htype : (readElfSect m (elfSectAt m image i)).type ≠ type := fun heq => hmatch (hi heq)
      rw [if_neg hmatch, if_neg htype, if_neg hmatch, if_neg htype,
        List.filter_cons_of_neg (by simpa using hmatch)]
      exact ih his retval index

/-- A section of the type that does not match ends the count. -/
theorem elf32GetSectionsLoop_of_not_allMatch (h : ¬ AllMatch m image type flags is) (retval : Nat) :
    elf32GetSectionsLoop m image type flags is retval = 0 := by
  induction is generalizing retval with
  | nil => exact absurd (fun _ hi => absurd hi List.not_mem_nil) h
  | cons i is ih =>
    rw [elf32GetSectionsLoop_cons]
    by_cases hmatch : MatchesAt m image type flags i
    · rw [if_pos hmatch]
      exact ih (fun hall => h (List.forall_mem_cons.mpr ⟨fun _ => hmatch, hall⟩)) _
    · rw [if_neg hmatch]
      split
      · rfl
      · next htype => exact ih (fun hall => h (List.forall_mem_cons.mpr ⟨fun heq => absurd heq htype, hall⟩)) _

theorem elf32GetSectionsILoop_of_none (h : ∀ i ∈ is, ¬ MatchesAt m image type flags i) (index : Nat) :
    elf32GetSectionsILoop m image type flags is index = none := by
  induction is with
  | nil => rfl
  | cons i is ih =>
    obtain ⟨hi, his⟩ := List.forall_mem_cons.mp h
    rw [elf32GetSectionsILoop_cons, if_neg hi]
    split
    · rfl
    · exact ih his

/-- **Count and index.** `elf32_get_sections` returns the number of matching sections, and
`elf32_get_sections_i` finds the one with the index, if there is one, if and only if the sections of the type
all match or none of them does. -/
theorem sections_agree_iff (m : Mem) (image type : Nat) (flags : Int) (index : Nat) :
    (elf32GetSections m image type flags = (matchingSections m image type flags).length
        ∧ elf32GetSectionsI m image index type flags = (matchingSections m image type flags)[index]?)
      ↔ (∀ i < (readElfShtab m image).numSects, (readElfSect m (elfSectAt m image i)).type = type →
            MatchesAt m image type flags i)
        ∨ ∀ i < (readElfShtab m image).numSects, ¬ MatchesAt m image type flags i := by
  have hrange : ∀ P : Nat → Prop, (∀ i < (readElfShtab m image).numSects, P i)
      ↔ ∀ i ∈ List.range (readElfShtab m image).numSects, P i := by
    intro P
    simp only [List.mem_range]
  rw [hrange, hrange]
  unfold elf32GetSections elf32GetSectionsI matchingSections
  generalize List.range (readElfShtab m image).numSects = is
  rw [List.length_map]
  constructor
  · rintro ⟨hcount, _⟩
    -- a count of 0 is right only if nothing matches
    by_cases hall : AllMatch m image type flags is
    · exact Or.inl hall
    · rw [elf32GetSectionsLoop_of_not_allMatch hall] at hcount
      right
      intro i hi hmatch
      exact List.filter_eq_nil_iff.mp (List.length_eq_zero_iff.mp hcount.symm) i hi (by simpa using hmatch)
  · rintro (hall | hnone)
    · obtain ⟨hcount, hindex⟩ := scans_of_allMatch hall 0 index
      exact ⟨hcount.trans (Nat.zero_add _), hindex⟩
    · have hnil : is.filter (MatchesAt m image type flags) = [] :=
        List.filter_eq_nil_iff.mpr fun i hi => by simpa using hnone i hi
      rw [hnil, elf32GetSectionsILoop_of_none hnone]
      refine ⟨?_, rfl⟩
      by_cases hall : AllMatch m image type flags is
      · rw [(scans_of_allMatch hall 0 0).1, hnil]
        exact Nat.zero_add _
      · exact elf32GetSectionsLoop_of_not_allMatch hall 0

end

/-! ## An object file

Two sections with the same type and other flags. -/

/-- An object file: its header, the sections NULL, PROGBITS, SYMTAB, STRTAB and PROGBITS, and what they hold:
four words of code, four symbols, the strings "a" and "b", a word of data, and three relocations. -/
def elfObjWords : List Nat := [
  0x464C457F, 0x00010101, 0, 0, 0x00030001, 1, 0, 0, 52, 0, 52, 0x280000, 5,
  0, 0, 0, 0, 0, 0, 0, 0, 0, 0,
  0, 1, 6, 0, 252, 16, 0, 0, 4, 0,
  0, 2, 0, 0, 268, 64, 3, 0, 4, 16,
  0, 3, 0, 0, 332, 8, 0, 0, 1, 0,
  0, 1, 3, 0, 340, 4, 0, 0, 4, 0,
  0x11, 0x22, 0x33, 0x44,
  0, 0, 0, 0,
  1, 4, 0, 0x00010001,
  1, 0, 0, 0x00040002,
  3, 7, 0, 0xFFF10000,
  0x62006100, 0,
  0x55,
  0, 0x101, 0,
  0, 0x001, 0,
  0, 0x103, 0]

def elfObjBytes : List UInt8 := elfObjWords.flatMap fun w =>
  [UInt8.ofNat w, UInt8.ofNat (w / 256), UInt8.ofNat (w / 65536), UInt8.ofNat (w / 16777216)]

/-- The object file at 4096. -/
def elfObj : Mem := fun a => if a < 4096 then 0 else elfObjBytes.getD (a - 4096) 0

/-- Of the two PROGBITS sections only the first has the flags 6, so there is one such section; the count is
zero. -/
theorem sections_count_zero :
    ¬ (elf32GetSections elfObj 4096 1 6 = (matchingSections elfObj 4096 1 6).length
        ∧ elf32GetSectionsI elfObj 4096 0 1 6 = (matchingSections elfObj 4096 1 6)[0]?) := by
  decide +kernel

end DiyOS
