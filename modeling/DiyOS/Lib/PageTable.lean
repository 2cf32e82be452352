import DiyOS.Lib.Memory
import DiyOS.Lib.Word

/-!
# Two-level page tables

A directory and its tables are pages of 1024 words in memory. An address selects an entry of the
directory, which gives the address of a table, and an entry of that table, which gives a frame. The low
bits of an entry are its flags.

* **`walk`** — the translation of an address.
* **`MapsPage`** — what mapping one page writes: an entry of the directory and one of the table.
* **`MapsPage.walk_self`**, **`walk_region`**, **`walk_elsewhere`** — what becomes of the page, of the
  other pages of its table, and of all other pages.
-/

namespace PageTable

open Word

/-! ## Entries

The bits that the processor reads of an entry of a directory or a table. Both have the same format. -/

def present (e : Nat) : Bool := e.testBit 0
def writable (e : Nat) : Bool := e.testBit 1
def user (e : Nat) : Bool := e.testBit 2

/-- The entry that a page is mapped with, or a directory entry in use: `e`, present and writable. -/
def mapped (e : Nat) : Nat := e ||| 1 ||| 2

@[simp] theorem present_mapped (e : Nat) : present (mapped e) = true := by
  simp [present, mapped]

@[simp] theorem writable_mapped (e : Nat) : writable (mapped e) = true := by
  have h : Nat.testBit 2 1 = true := by decide
  simp [writable, mapped, Nat.testBit_or, h]

@[simp] theorem user_mapped (e : Nat) : user (mapped e) = user e := by
  have h1 : Nat.testBit 1 2 = false := by decide
  have h2 : Nat.testBit 2 2 = false := by decide
  simp [user, mapped, Nat.testBit_or, h1, h2]

@[simp] theorem pageBase_mapped (e : Nat) : pageBase (mapped e) = pageBase e := by
  unfold pageBase mapped
  rw [Nat.and_or_distrib_right, Nat.and_or_distrib_right]
  simp

theorem mapped_lt {e : Nat} (h : e < 4294967296) : mapped e < 4294967296 := by
  have h2 : (2 : Nat) ^ 32 = 4294967296 := by decide
  unfold mapped
  rw [← h2] at h ⊢
  exact Nat.or_lt_two_pow (Nat.or_lt_two_pow h (by decide)) (by decide)

/-- A page begins at a multiple of 4096, -/
theorem pageBase_aligned {e : Nat} (h : e < 4294967296) : pageBase e % 4096 = 0 := by
  rw [pageBase_eq h]
  omega

/-- at or below each address in it. -/
theorem pageBase_le {e : Nat} (h : e < 4294967296) : pageBase e ≤ e := by
  rw [pageBase_eq h]
  omega

/-- The first address of a page is its base. -/
theorem pageBase_of_aligned {e : Nat} (h : e < 4294967296) (ha : e % 4096 = 0) : pageBase e = e := by
  rw [pageBase_eq h]
  omega

/-- A frame's address has no flags. -/
theorem user_pageBase {e : Nat} (h : e < 4294967296) : user (pageBase e) = false := by
  unfold user
  rw [pageBase_eq h, Nat.testBit_eq_decide_div_mod_eq, decide_eq_false_iff_not]
  omega

/-- A present entry is not zero. -/
theorem ne_zero_of_present {e : Nat} (h : present e = true) : e ≠ 0 := by
  rintro rfl
  cases h

/-! ## Tables in memory

1024 entries of four bytes each. -/

/-- The entry `i` of the table at `t`. It is irreducible, so that no test on an entry is decided by
computing with its bytes. -/
@[irreducible] def entry (m : Mem) (t i : Nat) : Nat := m.readWord (t + 4 * i)

def setEntry (m : Mem) (t i e : Nat) : Mem := m.writeWord (t + 4 * i) e

/-- Entries have four bytes. -/
theorem entry_eq (m : Mem) (t i : Nat) : entry m t i = m.readWord (t + 4 * i) := by
  unfold entry
  rfl

theorem entry_lt (m : Mem) (t i : Nat) : entry m t i < 4294967296 := by
  rw [entry_eq]
  exact Mem.readWord_lt _ _

theorem entry_setEntry_self (m : Mem) (t i : Nat) {e : Nat} (h : e < 4294967296) :
    entry (setEntry m t i e) t i = e := by
  rw [entry_eq]
  exact Mem.readWord_writeWord _ _ h

/-- Another entry, of the same table or of one in another page. -/
theorem entry_setEntry_of_ne (m : Mem) (e : Nat) {t t' i j : Nat} (ht : t % 4096 = 0) (ht' : t' % 4096 = 0)
    (hi : i < 1024) (hj : j < 1024) (hne : t' ≠ t ∨ j ≠ i) :
    entry (setEntry m t i e) t' j = entry m t' j := by
  rw [entry_eq, entry_eq]
  apply Mem.readWord_writeWord_of_disjoint
  omega

/-! ## Walks

How the processor translates an address: ten bits of it choose the entry of the directory, ten more the entry of
the table. -/

def directorySlot (v : Nat) : Nat := v / 4194304

def tableSlot (v : Nat) : Nat := v / 4096 % 1024

theorem directorySlot_lt {v : Nat} (h : v < 4294967296) : directorySlot v < 1024 := by
  unfold directorySlot
  omega

theorem tableSlot_lt (v : Nat) : tableSlot v < 1024 := Nat.mod_lt _ (by decide)

/-- Two addresses lie on the same page if they select the same entries. -/
theorem same_page_iff {a v : Nat} :
    a / 4096 = v / 4096 ↔ directorySlot a = directorySlot v ∧ tableSlot a = tableSlot v := by
  unfold directorySlot tableSlot
  omega

structure Translation where
  frame : Nat
  writable : Bool
  user : Bool
  deriving DecidableEq

/-- What the entries `d` of the directory and `e` of its table give. -/
def translateEntry (d e : Nat) : Option Translation :=
  if present d && present e then some ⟨pageBase e, writable d && writable e, user d && user e⟩ else none

/-- The walk of `v` from the directory at `pd`. -/
def walk (m : Mem) (pd v : Nat) : Option Translation :=
  let d := entry m pd (directorySlot v)
  translateEntry d (entry m (pageBase d) (tableSlot v))

theorem translateEntry_none_left {d : Nat} (h : present d = false) (e : Nat) :
    translateEntry d e = none := by
  simp [translateEntry, h]

/-- A page is mapped where both entries are present. -/
theorem translateEntry_isSome {d e : Nat} : (translateEntry d e).isSome = (present d && present e) := by
  unfold translateEntry
  split <;> simp_all

/-- The same, for the entries that the processor finds. -/
theorem walk_isSome (m : Mem) (pd v : Nat) : (walk m pd v).isSome
    = (present (entry m pd (directorySlot v))
      && present (entry m (pageBase (entry m pd (directorySlot v))) (tableSlot v))) := translateEntry_isSome

/-- A directory entry `d'`, present and writable, gives for the table entry `e` what `d` gave, if `e` is
not present, or `d` was present, and writable if `e` is. -/
theorem translateEntry_eq_iff {d d' e : Nat} (hpresent : present d' = true) (hwritable : writable d' = true)
    (huser : present d = true → user d' = user d) :
    translateEntry d' e = translateEntry d e
      ↔ (present e = true → present d = true ∧ (writable d = true ∨ writable e = false)) := by
  unfold translateEntry
  rw [hpresent, hwritable]
  cases present e with
  | false => simp
  | true =>
    cases hd : present d with
    | false => simp
    | true =>
      rw [huser hd]
      cases writable d with
      | true => simp
      | false => cases writable e <;> simp

/-! ## Mapping one page

What a change of one entry does to the translation of every address. -/

/-- From `m` to `m'` the directory entry for `v` became `d`, which leads to the table at `t`, and the
table's entry for `v` became `e`. Nothing else changed. -/
structure MapsPage (m m' : Mem) (pd v t d e : Nat) : Prop where
  directory_self : entry m' pd (directorySlot v) = d
  directory_other : ∀ i < 1024, i ≠ directorySlot v → entry m' pd i = entry m pd i
  table_self : entry m' t (tableSlot v) = e
  table_other : ∀ j < 1024, j ≠ tableSlot v → entry m' t j = entry m t j
  elsewhere : ∀ t' j, t' % 4096 = 0 → t' ≠ pd → t' ≠ t → j < 1024 → entry m' t' j = entry m t' j

section

variable {m m' : Mem} {pd v t d e : Nat}

/-- The two writes. -/
theorem MapsPage.of_setEntry (hpd : pd % 4096 = 0) (ht : t % 4096 = 0) (hne : t ≠ pd)
    (hv : v < 4294967296) (hd : d < 4294967296) (he : e < 4294967296) :
    MapsPage m (setEntry (setEntry m pd (directorySlot v) d) t (tableSlot v) e) pd v t d e := by
  have hslot := directorySlot_lt hv
  have htable := tableSlot_lt v
  constructor
  · rw [entry_setEntry_of_ne _ _ ht hpd htable hslot (Or.inl hne.symm), entry_setEntry_self _ _ _ hd]
  · intro i hi hother
    rw [entry_setEntry_of_ne _ _ ht hpd htable hi (Or.inl hne.symm),
      entry_setEntry_of_ne _ _ hpd hpd hslot hi (Or.inr hother)]
  · exact entry_setEntry_self _ _ _ he
  · intro j hj hother
    rw [entry_setEntry_of_ne _ _ ht ht htable hj (Or.inr hother),
      entry_setEntry_of_ne _ _ hpd ht hslot hj (Or.inl hne)]
  · intro t' j ht' hpd' htne hj
    rw [entry_setEntry_of_ne _ _ ht ht' htable hj (Or.inl htne),
      entry_setEntry_of_ne _ _ hpd ht' hslot hj (Or.inl hpd')]

/-- What stood in the directory entry before does not matter. -/
theorem MapsPage.of_directory {e₀ : Nat} (h : MapsPage (setEntry m pd (directorySlot v) e₀) m' pd v t d e)
    (hpd : pd % 4096 = 0) (ht : t % 4096 = 0) (hne : t ≠ pd) (hv : v < 4294967296) :
    MapsPage m m' pd v t d e := by
  have hslot := directorySlot_lt hv
  constructor
  · exact h.directory_self
  · intro i hi hother
    rw [h.directory_other i hi hother, entry_setEntry_of_ne _ _ hpd hpd hslot hi (Or.inr hother)]
  · exact h.table_self
  · intro j hj hother
    rw [h.table_other j hj hother, entry_setEntry_of_ne _ _ hpd ht hslot hj (Or.inl hne)]
  · intro t' j ht' hpd' htne hj
    rw [h.elsewhere t' j ht' hpd' htne hj, entry_setEntry_of_ne _ _ hpd ht' hslot hj (Or.inl hpd')]

variable (h : MapsPage m m' pd v t d e)

include h

theorem MapsPage.walk_self (ht : pageBase d = t) : walk m' pd v = translateEntry d e := by
  unfold walk
  simp only
  rw [h.directory_self, ht, h.table_self]

/-- The other pages of the table. -/
theorem MapsPage.walk_region (ht : pageBase d = t) {a : Nat} (hslot : directorySlot a = directorySlot v)
    (hother : tableSlot a ≠ tableSlot v) : walk m' pd a = translateEntry d (entry m t (tableSlot a)) := by
  unfold walk
  simp only
  rw [hslot, h.directory_self, ht, h.table_other _ (tableSlot_lt a) hother]

/-- The pages of other tables. -/
theorem MapsPage.walk_elsewhere {a : Nat} (ha : a < 4294967296) (hslot : directorySlot a ≠ directorySlot v)
    (hpd : pageBase (entry m pd (directorySlot a)) ≠ pd)
    (ht : pageBase (entry m pd (directorySlot a)) ≠ t) :
    walk m' pd a = walk m pd a := by
  unfold walk
  simp only
  rw [h.directory_other _ (directorySlot_lt ha) hslot,
    h.elsewhere _ _ (pageBase_aligned (entry_lt _ _ _)) hpd ht (tableSlot_lt a)]

/-- Without a table there is nothing to find. -/
theorem MapsPage.walk_absent {a : Nat} (ha : a < 4294967296) (hslot : directorySlot a ≠ directorySlot v)
    (hnone : present (entry m pd (directorySlot a)) = false) : walk m' pd a = walk m pd a := by
  unfold walk
  simp only
  rw [h.directory_other _ (directorySlot_lt ha) hslot, translateEntry_none_left hnone,
    translateEntry_none_left hnone]

end

end PageTable
