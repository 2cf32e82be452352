import DiyOS.Basic
import DiyOS.Lib.Memory
import Mathlib.Data.Nat.Find

/-!
# The search for the power-off block (`kernel/devices/acpi.c`)

`acpi_search_S5` adds the size of a header to a pointer to headers, so that it starts 36 headers behind the
table, not one; and it takes as many steps as the body has bytes, of which the last three leave it.

* **`IsS5`**, **`InBody`** — the four bytes, and where they have to lie.
* **`acpiSearchLoop_hit`**, **`mem_reads`** — what the loop returns and reads.
* **`acpi_search_S5_iff`** — for which tables the search is right.
-/

namespace DiyOS

open Word

/-! ## The source -/

/-- `sizeof(struct ACPISDTHeader)`. -/
def sizeofACPISDTHeader : Nat := 36

/-- The field `Length` of a header. -/
def headerLength (m : Mem) (hdr : Nat) : Nat := m.readWord (hdr + 4)

/-- `(uint32_t)'_5S_'`. -/
def s5Word : Nat := 0x5F35535F

/-- The loop of `acpi_search_S5` with `l` steps left: what it returns, and the words that it reads. -/
def acpiSearchLoop (m : Mem) : Nat → Nat → Nat × List Nat
  | 0, _ => (null, [])
  | l + 1, S5 =>
    if m.readWord S5 = s5Word then (S5, [S5])
    else
      let (block, reads) := acpiSearchLoop m l (u32 (S5 + 1))
      (block, S5 :: reads)

/-- `acpi_search_S5`, with the words that its loop reads. -/
def acpiSearchS5 (m : Mem) (hdr : Nat) : Nat × List Nat :=
  -- `hdr + n` is `n` headers behind `hdr`
  acpiSearchLoop m (sub32 (headerLength m hdr) sizeofACPISDTHeader)
    (u32 (hdr + sizeofACPISDTHeader * sizeofACPISDTHeader))

/-! ## What is searched for -/

/-- The bytes `_S5_` stand at `a`. -/
def IsS5 (m : Mem) (a : Nat) : Prop :=
  m.bytes a 4 = ['_'.toUInt8, 'S'.toUInt8, '5'.toUInt8, '_'.toUInt8]

instance (m : Mem) (a : Nat) : Decidable (IsS5 m a) := inferInstanceAs (Decidable (_ = _))

/-- The four bytes from `a` on lie in the body of the table. -/
def InBody (m : Mem) (table a : Nat) : Prop :=
  table + sizeofACPISDTHeader ≤ a ∧ a + 4 ≤ table + headerLength m table

/-- The first occurrence in the body. -/
structure FirstS5 (m : Mem) (table a : Nat) : Prop where
  inBody : InBody m table a
  isS5 : IsS5 m a
  first : ∀ b, InBody m table b → IsS5 m b → a ≤ b

/-- The first occurrence is returned, or the null pointer if there is none, and no byte outside the table
is read. -/
structure FindsS5 (m : Mem) (table : Nat) : Prop where
  block : FirstS5 m table (acpiSearchS5 m table).1
    ∨ (acpiSearchS5 m table).1 = null ∧ ∀ a, InBody m table a → ¬ IsS5 m a
  reads : ∀ a ∈ (acpiSearchS5 m table).2, table ≤ a ∧ a + 4 ≤ table + headerLength m table

theorem isS5_iff (m : Mem) (a : Nat) : IsS5 m a ↔ m.readWord a = s5Word := by
  have h0 := (m a).toNat_lt
  have h1 := (m (a + 1)).toNat_lt
  have h2 := (m (a + 2)).toNat_lt
  have h3 := (m (a + 3)).toNat_lt
  have hbyte : ∀ b c : UInt8, b = c ↔ b.toNat = c.toNat := fun b c => UInt8.toNat_inj.symm
  unfold IsS5 Mem.readWord s5Word
  rw [show m.bytes a 4 = [m a, m (a + 1), m (a + 2), m (a + 3)] from rfl]
  simp only [List.cons.injEq, and_true, hbyte]
  have hu : ('_'.toUInt8).toNat = 95 := rfl
  have hs : ('S'.toUInt8).toNat = 83 := rfl
  have h5 : ('5'.toUInt8).toNat = 53 := rfl
  omega

/-! ## The loop -/

section

variable {m : Mem} {l S5 k : Nat}

/-- The loop stops at the first hit. -/
theorem acpiSearchLoop_hit (hk : k < l) (hlt : S5 + k < 4294967296) (hhit : IsS5 m (S5 + k))
    (hbefore : ∀ j < k, ¬ IsS5 m (S5 + j)) :
    acpiSearchLoop m l S5 = (S5 + k, List.range' S5 (k + 1)) := by
  induction k generalizing l S5 with
  | zero =>
    obtain ⟨l, rfl⟩ := Nat.exists_eq_add_of_lt hk
    rw [acpiSearchLoop, if_pos ((isS5_iff m S5).mp hhit)]
    rfl
  | succ k ih =>
    obtain ⟨l, rfl⟩ := Nat.exists_eq_succ_of_ne_zero (Nat.ne_of_gt (Nat.lt_of_le_of_lt (Nat.zero_le _) hk))
    have hno : ¬ m.readWord S5 = s5Word := fun h => hbefore 0 (Nat.succ_pos k) ((isS5_iff m S5).mpr h)
    have hshift : ∀ j, S5 + 1 + j = S5 + (j + 1) := fun j => by omega
    have hrest := @ih l (S5 + 1) (Nat.lt_of_succ_lt_succ hk) (by omega) (by rw [hshift]; exact hhit)
      fun j hj => by rw [hshift]; exact hbefore (j + 1) (Nat.succ_lt_succ hj)
    rw [acpiSearchLoop, if_neg hno, u32_of_lt (by omega), hrest]
    refine Prod.ext ?_ ?_
    · exact hshift k
    · exact (List.range'_succ).symm

/-- A word is read unless there is a hit before it. -/
theorem mem_reads (hk : k < l) (hbefore : ∀ j < k, ¬ IsS5 m (u32 (S5 + j))) (hS5 : S5 < 4294967296) :
    u32 (S5 + k) ∈ (acpiSearchLoop m l S5).2 := by
  induction k generalizing l S5 with
  | zero =>
    obtain ⟨l, rfl⟩ := Nat.exists_eq_add_of_lt hk
    rw [show u32 (S5 + 0) = S5 from u32_of_lt hS5, acpiSearchLoop]
    split
    · exact List.mem_singleton.mpr rfl
    · exact List.mem_cons_self
  | succ k ih =>
    obtain ⟨l, rfl⟩ := Nat.exists_eq_succ_of_ne_zero (Nat.ne_of_gt (Nat.lt_of_le_of_lt (Nat.zero_le _) hk))
    have hno : ¬ m.readWord S5 = s5Word := by
      intro h
      have hfirst := hbefore 0 (Nat.succ_pos k)
      rw [Nat.add_zero, u32_of_lt hS5] at hfirst
      exact hfirst ((isS5_iff m S5).mpr h)
    have hshift : ∀ j, u32 (u32 (S5 + 1) + j) = u32 (S5 + (j + 1)) := fun j => by
      rw [u32_u32_add, Nat.add_assoc, Nat.add_comm 1 j]
    have hrest := @ih l (u32 (S5 + 1)) (Nat.lt_of_succ_lt_succ hk)
      (fun j hj => by rw [hshift]; exact hbefore (j + 1) (Nat.succ_lt_succ hj)) (u32_lt _)
    rw [hshift] at hrest
    rw [acpiSearchLoop, if_neg hno]
    exact List.mem_cons_of_mem _ hrest

end

/-! ## Tables -/

section

variable {m : Mem} {table : Nat}

/-- Without a body there is nothing to find. -/
theorem findsS5_of_header (h : headerLength m table = sizeofACPISDTHeader) : FindsS5 m table := by
  have hsearch : acpiSearchS5 m table = (null, []) := by
    unfold acpiSearchS5
    rw [h]
    rfl
  refine ⟨Or.inr ⟨congrArg Prod.fst hsearch, fun a ha => ?_⟩, fun a ha => ?_⟩
  · obtain ⟨hlo, hhi⟩ := ha
    omega
  · rw [hsearch] at ha
    cases ha

variable (hlength : sizeofACPISDTHeader ≤ headerLength m table)
  (hfits : table + headerLength m table ≤ 4294967296)
include hlength hfits

omit hfits in
/-- The number of steps. -/
theorem sub32_headerLength :
    sub32 (headerLength m table) sizeofACPISDTHeader = headerLength m table - sizeofACPISDTHeader :=
  sub32_of_le hlength (m.readWord_lt _)

/-- The search comes to what it starts at or after. -/
theorem acpiSearchS5_hit {k : Nat} (hk : 1296 + k + 4 ≤ headerLength m table) (hhit : IsS5 m (table + 1296 + k))
    (hbefore : ∀ j < k, ¬ IsS5 m (table + 1296 + j)) :
    acpiSearchS5 m table = (table + 1296 + k, List.range' (table + 1296) (k + 1)) := by
  unfold acpiSearchS5
  rw [sub32_headerLength hlength, show sizeofACPISDTHeader * sizeofACPISDTHeader = 1296 from rfl,
    u32_of_lt (by omega)]
  refine acpiSearchLoop_hit ?_ (by omega) hhit hbefore
  unfold sizeofACPISDTHeader at *
  omega

/-- Without a hit before it, the first word is read that is not inside the table. -/
theorem reads_outside (hbody : sizeofACPISDTHeader < headerLength m table)
    (hnone : ∀ j, 1296 + j + 4 ≤ headerLength m table → ¬ IsS5 m (table + 1296 + j)) :
    ∃ a ∈ (acpiSearchS5 m table).2, ¬ (table ≤ a ∧ a + 4 ≤ table + headerLength m table) := by
  have hlt : headerLength m table < 4294967296 := m.readWord_lt _
  have hcount := sub32_headerLength hlength
  refine ⟨u32 (u32 (table + 1296) + (headerLength m table - 1299)), ?_, ?_⟩
  · unfold acpiSearchS5
    rw [hcount]
    refine mem_reads ?_ (fun j hj => ?_) (u32_lt _)
    · unfold sizeofACPISDTHeader at *
      omega
    · rw [show sizeofACPISDTHeader * sizeofACPISDTHeader = 1296 from rfl, u32_u32_add, u32_of_lt (by omega)]
      exact hnone j (by omega)
  · rw [u32_u32_add]
    unfold u32
    omega

end

/-- **The power-off block.** For every table, the search returns the first occurrence of `_S5_` in the body,
or the null pointer if there is none, and reads no byte outside the table, if and only if the table has no
body or its first occurrence lies 1296 bytes or more behind the start of the table. -/
theorem acpi_search_S5_iff {m : Mem} {table : Nat} (hlength : 36 ≤ headerLength m table)
    (hfits : table + headerLength m table ≤ 4294967296) :
    FindsS5 m table ↔ headerLength m table = 36 ∨ ∃ a, FirstS5 m table a ∧ table + 1296 ≤ a := by
  refine ⟨fun h => ?_, fun h => ?_⟩
  · rw [or_iff_not_imp_left]
    intro hbody
    have hfind : ∃ j, 1296 + j + 4 ≤ headerLength m table ∧ IsS5 m (table + 1296 + j) := by
      by_contra hnone
      obtain ⟨a, ha, hout⟩ := reads_outside hlength hfits (Nat.lt_of_le_of_ne hlength (Ne.symm hbody))
        fun j hj hhit => hnone ⟨j, hj, hhit⟩
      exact hout (h.reads a ha)
    -- the first hit of the loop
    classical
    obtain ⟨hk, hhit⟩ := Nat.find_spec hfind
    have hsearch := acpiSearchS5_hit hlength hfits hk hhit fun j hj hbefore =>
      Nat.find_min hfind hj ⟨by omega, hbefore⟩
    rcases h.block with hfirst | ⟨_, hnone⟩
    · rw [hsearch] at hfirst
      exact ⟨_, hfirst, by omega⟩
    · refine absurd hhit (hnone _ ⟨?_, by omega⟩)
      unfold sizeofACPISDTHeader
      omega
  · rcases h with hheader | ⟨a, hfirst, hstart⟩
    · exact findsS5_of_header hheader
    · obtain ⟨k, rfl⟩ := Nat.exists_eq_add_of_le hstart
      obtain ⟨_, hend⟩ := id hfirst.inBody
      have hsearch := acpiSearchS5_hit hlength hfits (by omega) hfirst.isS5 fun j hj hhit => by
        have hle := hfirst.first (table + 1296 + j) ⟨by unfold sizeofACPISDTHeader; omega, by omega⟩ hhit
        omega
      refine ⟨Or.inl ?_, fun a ha => ?_⟩
      · rw [hsearch]
        exact hfirst
      · rw [hsearch, List.mem_range'_1] at ha
        omega

/-- A table at 1 MiB with its length, and `_S5_` at an offset. -/
def s5Table (length offset : Nat) : Mem := fun a =>
  if a = 0x100004 then UInt8.ofNat length
  else if a = 0x100005 then UInt8.ofNat (length / 256)
  else if a = 0x100000 + offset ∨ a = 0x100000 + (offset + 3) then '_'.toUInt8
  else if a = 0x100000 + (offset + 1) then 'S'.toUInt8
  else if a = 0x100000 + (offset + 2) then '5'.toUInt8
  else 0

/-- A table that ends with its only occurrence, at the offset 1296. -/
theorem acpi_search_S5_far : FindsS5 (s5Table 1300 1296) 0x100000 := by
  have hlength : headerLength (s5Table 1300 1296) 0x100000 = 1300 := by decide
  refine (acpi_search_S5_iff (by rw [hlength]; decide) (by rw [hlength]; decide)).mpr
    (Or.inr ⟨0x100510, ⟨⟨by decide, by rw [hlength]⟩, by decide, fun b _ hb => ?_⟩, by decide⟩)
  -- the first byte of an occurrence is an underscore
  have hbyte : s5Table 1300 1296 b = '_'.toUInt8 := (List.cons.inj hb).1
  by_contra hlt
  unfold s5Table at hbyte
  split at hbyte
  · exact absurd hbyte (by decide)
  · split at hbyte
    · exact absurd hbyte (by decide)
    · rw [if_neg (by omega), if_neg (by omega), if_neg (by omega)] at hbyte
      exact absurd hbyte (by decide)

/-- The table of 40 bytes whose body is `_S5_`: the search returns the null pointer, and reads four words
far behind the table. -/
theorem acpi_search_S5_misses : headerLength (s5Table 40 36) 0x100000 = 40
    ∧ FirstS5 (s5Table 40 36) 0x100000 0x100024
    ∧ acpiSearchS5 (s5Table 40 36) 0x100000 = (null, [0x100510, 0x100511, 0x100512, 0x100513])
    ∧ ¬ FindsS5 (s5Table 40 36) 0x100000 := by
  have hsearch : acpiSearchS5 (s5Table 40 36) 0x100000 = (null, [0x100510, 0x100511, 0x100512, 0x100513]) := by
    decide
  refine ⟨by decide, ⟨⟨by decide, by decide⟩, by decide, fun b hb _ => hb.1⟩, hsearch, fun h => ?_⟩
  exact absurd (h.reads 0x100510 (by rw [hsearch]; exact List.mem_cons_self)) (by decide)

end DiyOS
