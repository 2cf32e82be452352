import DiyOS.Frame
import DiyOS.Lib.PageTable

/-!
# Mapping a page (`page_map`)

`page_map` looks up the page table for the address in the directory, takes a frame for it if there is
none, marks it present and writable, and writes the page's entry. The frame is used as it comes: what
stood in it becomes the other entries of the table.

* **`PagingOk`** — the invariant: the directory and the tables are different pages, none of them free.
* **`PagingOk.pageMap`** — what `page_map` does, in terms of `MapsPage`; it keeps the invariant.
* **`pageMap_only_asked_iff`** — the page asked for is mapped, and no other page changes exactly if the
  table has no other present entry that the directory entry did not already give.
-/

namespace DiyOS

open Word PageTable

/-- The physical memory, in which the directory and the tables are reached at their physical addresses,
the register `cr3`, and the frame allocator with all that `frame_get` has returned. -/
structure PageState where
  mem : Mem
  cr3 : Nat
  frames : Frames
  got : List Nat

namespace PageState

/-- `pd`, as every function computes it. -/
def pd (s : PageState) : Nat := pageBase s.cr3

/-- `pd[i]`. -/
def directoryEntry (s : PageState) (i : Nat) : Nat := entry s.mem s.pd i

/-- The table that `pd[i]` leads to. -/
def table (s : PageState) (i : Nat) : Nat := pageBase (s.directoryEntry i)

/-- The walk of the processor. -/
def walk (s : PageState) (v : Nat) : Option Translation := PageTable.walk s.mem s.pd v

/-- `frame_get`. If it returns, it has called itself once at most: the second search begins at frame 0 and
finds a frame if there is one. -/
def frameGet (s : PageState) : Option (Nat × PageState) :=
  match DiyOS.frameGet 2 s.frames with
  | none => none
  | some (addr, f) => some (addr, { s with frames := f, got := addr :: s.got })

end PageState

def pageFlagPresent : Nat := 1 <<< 0

def pageFlagRw : Nat := 1 <<< 1

/-! ## `page_map`

The code takes the physical addresses in `cr3` and in the directory for pointers. A table that is missing gets a
frame, and the entry that is written is present and writable. -/

/-- A new physical frame for the page table. -/
def newTable (tIdx : Nat) (s : PageState) : Option PageState :=
  match s.frameGet with
  | none => none
  | some (frame, s) => some { s with mem := setEntry s.mem s.pd tIdx frame }

/-- `page_map` once `pd[t_idx]` has the address of a table. -/
def mapInTable (pAddr vAddr : Nat) (s : PageState) : PageState :=
  let tIdx := vAddr >>> 22
  let mem := setEntry s.mem s.pd tIdx (s.directoryEntry tIdx ||| pageFlagPresent ||| pageFlagRw)
  let table := pageBase (entry mem s.pd tIdx)
  let pIdx := (vAddr >>> 12) &&& 0x3FF
  { s with mem := setEntry mem table pIdx (pageBase pAddr ||| pageFlagPresent ||| pageFlagRw) }

/-- `page_map`; `none` where `frame_get` does not return. It is irreducible, so that no loop over it is
unfolded into the bits of an entry. -/
@[irreducible] def pageMap (pAddr vAddr : Nat) (s : PageState) : Option PageState :=
  let tIdx := vAddr >>> 22
  if pageBase (s.directoryEntry tIdx) = 0 then
    match newTable tIdx s with
    | none => none
    | some s => some (mapInTable pAddr vAddr s)
  else some (mapInTable pAddr vAddr s)

/-! ## The invariant

What `mm` and `page_map` keep: the directory and its tables are pages that do not overlap, and no frame in use is
handed out for a table. -/

/-- The directory and the tables are different pages, and the allocator holds none of them for free. -/
structure PagingOk (s : PageState) : Prop where
  cr3_lt : s.cr3 < 4294967296
  table_of_present : ∀ i < 1024, present (s.directoryEntry i) = true → s.table i ≠ 0
  distinct : ∀ i < 1024, ∀ j < 1024, i ≠ j → s.table i ≠ 0 → s.table i ≠ s.table j
  apart : ∀ i < 1024, s.table i ≠ 0 → s.table i ≠ s.pd
  taken_pd : s.frames.physicalBitmap (frameGroup s.pd) ≠ 0
  taken_table : ∀ i < 1024, s.table i ≠ 0 → s.frames.physicalBitmap (frameGroup (s.table i)) ≠ 0
  count_le : s.frames.framesCount ≤ 1048576

/-- The table for `v` is at `t`, or there is none and `frame_get` supplies the frame at `t`. -/
def GetsTable (s : PageState) (v t : Nat) : Prop :=
  t ≠ 0 ∧ (s.table (directorySlot v) = t
    ∨ s.table (directorySlot v) = 0 ∧ ∃ f, frameGet 2 s.frames = some (t, f))

/-- The allocator has given a frame, or not. -/
structure FramesTaken (s s' : PageState) : Prop where
  bitmap : ∀ g, s.frames.physicalBitmap g ≠ 0 → s'.frames.physicalBitmap g ≠ 0
  count : s'.frames.framesCount = s.frames.framesCount
  got : s'.got = s.got ∨ ∃ addr, s'.got = addr :: s.got ∧ frameGet 2 s.frames = some (addr, s'.frames)

section

variable {s s' : PageState} {pAddr v t : Nat}

theorem PagingOk.pd_aligned (h : PagingOk s) : s.pd % 4096 = 0 := pageBase_aligned h.cr3_lt

theorem PageState.table_aligned (s : PageState) (i : Nat) : s.table i % 4096 = 0 :=
  pageBase_aligned (entry_lt _ _ _)

/-- The frame that `frame_get` gives was free. -/
theorem frameGet_fresh {f f' : Frames} {fuel addr : Nat} (hcount : f.framesCount ≤ 1048576)
    (hget : frameGet fuel f = some (addr, f')) (hne : addr ≠ 0) :
    addr % 4096 = 0 ∧ addr < 4294967296 ∧ f.physicalBitmap (frameGroup addr) = 0
      ∧ f'.physicalBitmap
        = Function.update f.physicalBitmap (frameGroup addr) (frameBit (addr / 4096))
      ∧ f'.framesCount = f.framesCount := by
  have hfree : f.framesFree ≠ 0 := fun hzero => hne (frameGet_none hzero hget).1
  rcases frameGet_spec hfree hget with ⟨i, hlt, hclear, haddr, hbitmap, hcount', _⟩
  have hval : addr = i * 4096 := by
    rw [haddr, u32_of_lt (by omega)]
  have hframe : addr / 4096 = i := by omega
  have hgroup : frameGroup addr = i / 8 := by rw [frameGroup, hframe]
  rw [hgroup, hframe]
  exact ⟨by omega, by omega, hclear, hbitmap, hcount'⟩

/-- What is not free stays so when a frame is given. -/
theorem bitmap_of_get {f f' : Frames} {addr : Nat}
    (hbitmap : f'.physicalBitmap
      = Function.update f.physicalBitmap (frameGroup addr) (frameBit (addr / 4096))) (g : Nat)
    (h : f.physicalBitmap g ≠ 0 ∨ g = frameGroup addr) : f'.physicalBitmap g ≠ 0 := by
  rw [hbitmap]
  rcases eq_or_ne g (frameGroup addr) with rfl | hne
  · rw [Function.update_self]
    exact frameBit_ne_zero _
  · rw [Function.update_of_ne hne]
    exact h.resolve_right hne

theorem or_flags (e : Nat) : e ||| pageFlagPresent ||| pageFlagRw = mapped e := rfl

theorem shiftRight_slot (v : Nat) : v >>> 22 = directorySlot v := Nat.shiftRight_eq_div_pow v 22

theorem shiftRight_and_slot (v : Nat) : (v >>> 12) &&& 0x3FF = tableSlot v := by
  rw [Nat.shiftRight_eq_div_pow]
  exact Nat.and_two_pow_sub_one_eq_mod (v / 2 ^ 12) 10

/-- The words that `page_map` writes when it has the table. -/
theorem mapInTable_maps (hcr3 : s.cr3 < 4294967296) (hp : pAddr < 4294967296) (hv : v < 4294967296)
    (hne : s.table (directorySlot v) ≠ s.pd) :
    MapsPage s.mem (mapInTable pAddr v s).mem s.pd v (s.table (directorySlot v))
      (mapped (s.directoryEntry (directorySlot v))) (mapped (pageBase pAddr)) := by
  have hd : mapped (s.directoryEntry (directorySlot v)) < 4294967296 := mapped_lt (entry_lt _ _ _)
  have he : mapped (pageBase pAddr) < 4294967296 := mapped_lt (Nat.lt_of_le_of_lt (pageBase_le hp) hp)
  have htable : pageBase (entry (setEntry s.mem s.pd (directorySlot v)
      (mapped (s.directoryEntry (directorySlot v)))) s.pd (directorySlot v))
        = s.table (directorySlot v) := by
    rw [entry_setEntry_self _ _ _ hd, pageBase_mapped]
    rfl
  have hpd : s.pd % 4096 = 0 := pageBase_aligned hcr3
  have hmaps := @MapsPage.of_setEntry s.mem s.pd v _ _ _ hpd (s.table_aligned _) hne hv hd he
  have hmem : (mapInTable pAddr v s).mem = setEntry (setEntry s.mem s.pd (directorySlot v)
      (mapped (s.directoryEntry (directorySlot v)))) (s.table (directorySlot v)) (tableSlot v)
        (mapped (pageBase pAddr)) := by
    unfold mapInTable
    dsimp only
    rw [shiftRight_slot, shiftRight_and_slot, or_flags, or_flags, htable]
  rw [hmem]
  exact hmaps

/-- The table is no other page that paging uses. -/
theorem GetsTable.fresh (h : PagingOk s) (hv : v < 4294967296) (hgets : GetsTable s v t) :
    t % 4096 = 0 ∧ t < 4294967296 ∧ t ≠ s.pd
      ∧ ∀ i < 1024, i ≠ directorySlot v → t ≠ s.table i := by
  rcases hgets with ⟨hne, hfound | ⟨_, f, hget⟩⟩
  · subst hfound
    have hslot := directorySlot_lt hv
    refine ⟨s.table_aligned _, ?_, h.apart _ hslot hne, ?_⟩
    · exact Nat.lt_of_le_of_lt (pageBase_le (entry_lt _ _ _)) (entry_lt _ _ _)
    · exact fun i hi hother => h.distinct _ hslot i hi hother.symm hne
  · -- the frame was free, and the pages in use are not
    rcases frameGet_fresh h.count_le hget hne with ⟨halign, hlt, hclear, _⟩
    refine ⟨halign, hlt, ?_, ?_⟩
    · rintro rfl
      exact h.taken_pd hclear
    · rintro i hi _ rfl
      exact h.taken_table i hi hne hclear

/-- What `page_map` did: the page is mapped in the table at `t`, to which the directory entry `d`
leads. -/
structure PageMapped (s s' : PageState) (pAddr v t d : Nat) : Prop where
  maps : MapsPage s.mem s'.mem s.pd v t d (mapped (pageBase pAddr))
  table_eq : pageBase d = t
  present_d : present d = true
  writable_d : writable d = true
  user_d : present (s.directoryEntry (directorySlot v)) = true →
    user d = user (s.directoryEntry (directorySlot v))
  cr3_eq : s'.cr3 = s.cr3
  taken : FramesTaken s s'
  taken_table : s'.frames.physicalBitmap (frameGroup t) ≠ 0

theorem pageMap_of_table (h : s.table (directorySlot v) ≠ 0) :
    pageMap pAddr v s = some (mapInTable pAddr v s) := by
  unfold pageMap
  rw [shiftRight_slot]
  exact if_neg h

/-- **`page_map`** with a table, or with a frame for one. -/
theorem PagingOk.pageMap (h : PagingOk s) (hp : pAddr < 4294967296) (hv : v < 4294967296)
    (hgets : GetsTable s v t) : ∃ s' d, pageMap pAddr v s = some s' ∧ PageMapped s s' pAddr v t d := by
  have hslot := directorySlot_lt hv
  rcases hgets.fresh h hv with ⟨halign, hlt, hpd, _⟩
  rcases hgets with ⟨hne, hfound | ⟨hnone, f, hget⟩⟩
  · subst hfound
    refine ⟨_, _, pageMap_of_table hne, mapInTable_maps h.cr3_lt hp hv hpd, ?_, ?_, ?_, ?_, rfl, ?_, ?_⟩
    · exact pageBase_mapped _
    · exact present_mapped _
    · exact writable_mapped _
    · exact fun _ => user_mapped _
    · exact ⟨fun _ hg => hg, rfl, Or.inl rfl⟩
    · exact h.taken_table _ hslot hne
  · rcases frameGet_fresh h.count_le hget hne with ⟨_, _, hclear, hbitmap, hcount⟩
    -- the state with the fresh frame in the directory
    let s₁ : PageState :=
      { mem := setEntry s.mem s.pd (directorySlot v) t, cr3 := s.cr3, frames := f, got := t :: s.got }
    have hentry : s₁.directoryEntry (directorySlot v) = t := entry_setEntry_self _ _ _ hlt
    have htable : s₁.table (directorySlot v) = t := by
      rw [PageState.table, hentry, pageBase_of_aligned hlt halign]
    have hcall : DiyOS.pageMap pAddr v s = some (mapInTable pAddr v s₁) := by
      have hnew : newTable (directorySlot v) s = some s₁ := by
        unfold newTable PageState.frameGet
        rw [hget]
        rfl
      unfold DiyOS.pageMap
      rw [shiftRight_slot]
      simp only
      rw [hnew]
      exact if_pos hnone
    have hmaps := @mapInTable_maps s₁ pAddr v h.cr3_lt hp hv (by rw [htable]; exact hpd)
    rw [htable, hentry] at hmaps
    refine ⟨_, mapped t, hcall, hmaps.of_directory h.pd_aligned halign hpd hv, ?_, ?_, ?_, ?_, rfl, ?_, ?_⟩
    · rw [pageBase_mapped, pageBase_of_aligned hlt halign]
    · exact present_mapped _
    · exact writable_mapped _
    · -- there was no table, and no present entry
      exact fun hpresent => absurd hnone (h.table_of_present _ hslot hpresent)
    · exact ⟨fun g hg => bitmap_of_get hbitmap g (Or.inl hg), hcount, Or.inr ⟨t, rfl, hget⟩⟩
    · exact bitmap_of_get hbitmap _ (Or.inr rfl)

/-- If `page_map` returns, and `frame_get` has never returned 0, it had a table. -/
theorem getsTable_of_pageMap (hcall : pageMap pAddr v s = some s') (hgot : 0 ∉ s'.got) :
    ∃ t, GetsTable s v t := by
  unfold pageMap at hcall
  rw [shiftRight_slot] at hcall
  simp only at hcall
  split at hcall
  · next hnone =>
    unfold newTable PageState.frameGet at hcall
    cases hget : frameGet 2 s.frames with
    | none =>
      rw [hget] at hcall
      cases hcall
    | some r =>
      rw [hget] at hcall
      refine ⟨r.1, ?_, Or.inr ⟨hnone, r.2, hget⟩⟩
      rintro hzero
      apply hgot
      rw [← Option.some.inj hcall]
      exact List.mem_cons.mpr (Or.inl hzero.symm)
  · next hfound => exact ⟨_, hfound, Or.inl rfl⟩

/-- The directory after `page_map`. -/
theorem PageMapped.table {d : Nat} (hmap : PageMapped s s' pAddr v t d) {i : Nat} (hi : i < 1024) :
    s'.table i = if i = directorySlot v then t else s.table i := by
  have hpd : s'.pd = s.pd := congrArg pageBase hmap.cr3_eq
  unfold PageState.table PageState.directoryEntry
  rw [hpd]
  split
  · next heq => rw [heq, hmap.maps.directory_self, hmap.table_eq]
  · next hother => rw [hmap.maps.directory_other i hi hother]

/-- **`page_map` keeps the invariant.** -/
theorem PageMapped.ok (h : PagingOk s) (hv : v < 4294967296) (hgets : GetsTable s v t) {d : Nat}
    (hmap : PageMapped s s' pAddr v t d) : PagingOk s' := by
  have hpd : s'.pd = s.pd := congrArg pageBase hmap.cr3_eq
  rcases hgets.fresh h hv with ⟨_, _, hapart, hother⟩
  have hne := hgets.1
  constructor
  · rw [hmap.cr3_eq]
    exact h.cr3_lt
  · intro i hi hpresent
    rw [hmap.table hi]
    split
    · exact hne
    · next hslot =>
      unfold PageState.directoryEntry at hpresent
      rw [hpd, hmap.maps.directory_other i hi hslot] at hpresent
      exact h.table_of_present i hi hpresent
  -- the new table differs from all others, since its frame was free
  · intro i hi j hj hij
    rw [hmap.table hi, hmap.table hj]
    by_cases hslot : i = directorySlot v
    · rw [if_pos hslot, if_neg (fun heq => hij (hslot.trans heq.symm))]
      exact fun _ => hother j hj fun heq => hij (hslot.trans heq.symm)
    · rw [if_neg hslot]
      split
      · exact fun _ => (hother i hi hslot).symm
      · exact h.distinct i hi j hj hij
  · intro i hi
    rw [hmap.table hi, hpd]
    split
    · exact fun _ => hapart
    · exact h.apart i hi
  · rw [hpd]
    exact hmap.taken.bitmap _ h.taken_pd
  · intro i hi
    rw [hmap.table hi]
    split
    · exact fun _ => hmap.taken_table
    · exact fun htable => hmap.taken.bitmap _ (h.taken_table i hi htable)
  · rw [hmap.taken.count]
    exact h.count_le

/-! ## The other pages

A new table is not cleared. So the pages that it covers are mapped as the memory says that the frame held before. -/

/-- The other entries of the table at `t` are not present, or the directory entry for `v` was present,
and writable too if they are. -/
def TableFits (s : PageState) (v t : Nat) : Prop :=
  ∀ j < 1024, j ≠ tableSlot v → present (entry s.mem t j) = true →
    present (s.directoryEntry (directorySlot v)) = true
      ∧ (writable (s.directoryEntry (directorySlot v)) = true ∨ writable (entry s.mem t j) = false)

/-- What the other pages of the table gave before. -/
theorem walk_before (h : PagingOk s) (hv : v < 4294967296) (hgets : GetsTable s v t) {a : Nat}
    (hslot : directorySlot a = directorySlot v) : s.walk a
      = translateEntry (s.directoryEntry (directorySlot v)) (entry s.mem t (tableSlot a)) := by
  rcases hgets with ⟨_, hfound | ⟨hnone, _⟩⟩
  · rw [← hfound]
    unfold PageState.walk PageTable.walk PageState.table PageState.directoryEntry
    rw [hslot]
  · -- without a table nothing is present
    have habsent : present (s.directoryEntry (directorySlot v)) = false := by
      by_contra hpresent
      exact h.table_of_present _ (directorySlot_lt hv) (by simpa using hpresent) hnone
    unfold PageState.walk PageTable.walk
    simp only
    rw [hslot, translateEntry_none_left habsent]
    exact translateEntry_none_left habsent _

/-- A page of another table is left alone, and so is one without a table. -/
theorem PageMapped.walk_other (h : PagingOk s) (hv : v < 4294967296) (hgets : GetsTable s v t) {d : Nat}
    (hmap : PageMapped s s' pAddr v t d) {a : Nat} (ha : a < 4294967296)
    (hslot : directorySlot a ≠ directorySlot v) : s'.walk a = s.walk a := by
  have hpd : s'.pd = s.pd := congrArg pageBase hmap.cr3_eq
  rw [PageState.walk, hpd]
  cases hpresent : present (s.directoryEntry (directorySlot a)) with
  | false => exact hmap.maps.walk_absent ha hslot hpresent
  | true =>
    have hne := h.table_of_present _ (directorySlot_lt ha) hpresent
    exact hmap.maps.walk_elsewhere ha hslot (h.apart _ (directorySlot_lt ha) hne)
      ((hgets.fresh h hv).2.2.2 _ (directorySlot_lt ha) hslot).symm

/-- **Mapping a page.** In every paging state, for all addresses and whatever the memory holds, if
`page_map` has a table or gets a frame for one: the page is mapped, present and writable, to `p_addr`'s
frame; and the walks of all other pages give what they gave before if and only if the other entries of
the table are not present, or were to be found before with the same rights. -/
theorem pageMap_only_asked_iff (h : PagingOk s) (hp : pAddr < 4294967296) (hv : v < 4294967296)
    (hgets : GetsTable s v t) :
    ∃ s', pageMap pAddr v s = some s' ∧ s'.walk v = some ⟨pageBase pAddr, true, false⟩
      ∧ ((∀ a < 4294967296, a / 4096 ≠ v / 4096 → s'.walk a = s.walk a) ↔ TableFits s v t) := by
  rcases h.pageMap hp hv hgets with ⟨s', d, hcall, hmap⟩
  have hpd : s'.pd = s.pd := congrArg pageBase hmap.cr3_eq
  have hfits : ∀ a, directorySlot a = directorySlot v → tableSlot a ≠ tableSlot v →
      (s'.walk a = s.walk a ↔ (present (entry s.mem t (tableSlot a)) = true →
        present (s.directoryEntry (directorySlot v)) = true
          ∧ (writable (s.directoryEntry (directorySlot v)) = true
            ∨ writable (entry s.mem t (tableSlot a)) = false))) := by
    intro a hslot hother
    rw [walk_before h hv hgets hslot, PageState.walk, hpd,
      hmap.maps.walk_region hmap.table_eq hslot hother]
    exact translateEntry_eq_iff hmap.present_d hmap.writable_d hmap.user_d
  refine ⟨s', hcall, ?_, ?_, ?_⟩
  · rw [PageState.walk, hpd, hmap.maps.walk_self hmap.table_eq]
    unfold translateEntry
    rw [hmap.present_d, hmap.writable_d, present_mapped, writable_mapped, user_mapped, user_pageBase hp,
      pageBase_mapped, pageBase_of_aligned (Nat.lt_of_le_of_lt (pageBase_le hp) hp) (pageBase_aligned hp)]
    simp
  · intro hall j hj hother
    -- the page of the slot `j`
    have hslot : directorySlot (directorySlot v * 4194304 + j * 4096) = directorySlot v := by
      unfold directorySlot
      omega
    have htable : tableSlot (directorySlot v * 4194304 + j * 4096) = j := by
      unfold directorySlot tableSlot
      omega
    have hiff := hfits (directorySlot v * 4194304 + j * 4096) hslot (by rw [htable]; exact hother)
    rw [htable] at hiff
    apply hiff.mp
    apply hall
    · unfold directorySlot
      omega
    · intro hpage
      exact hother (htable.symm.trans (same_page_iff.mp hpage).2)
  · intro htable a ha hpage
    by_cases hslot : directorySlot a = directorySlot v
    · have hother : tableSlot a ≠ tableSlot v := fun heq => hpage (same_page_iff.mpr ⟨hslot, heq⟩)
      exact (hfits a hslot hother).mpr (htable _ (tableSlot_lt a) hother)
    · exact hmap.walk_other h hv hgets ha hslot

end

/-! ## A fresh table

An allocator with sixteen frames and an empty directory. -/

/-- Sixteen frames, the first reserved, with the directory in it; no page is mapped. -/
def sixteenPages (m : Mem) : PageState := ⟨m, 0, sixteenFrames, []⟩

/-- The directory is empty. -/
theorem sixteenPages_entry {m : Mem} (hm : ∀ a < 4096, m a = 0) {i : Nat} (hi : i < 1024) :
    (sixteenPages m).directoryEntry i = 0 := by
  show entry m (pageBase 0) i = 0
  have hpd : pageBase 0 = 0 := by decide
  rw [entry_eq, hpd]
  unfold Mem.readWord
  rw [hm _ (by omega), hm _ (by omega), hm _ (by omega), hm _ (by omega)]
  rfl

theorem sixteenPages_table {m : Mem} (hm : ∀ a < 4096, m a = 0) {i : Nat} (hi : i < 1024) :
    (sixteenPages m).table i = 0 := by
  rw [PageState.table, sixteenPages_entry hm hi]
  decide

/-- This meets the invariant. -/
theorem sixteenPages_ok {m : Mem} (hm : ∀ a < 4096, m a = 0) : PagingOk (sixteenPages m) := by
  constructor
  · show 0 < 4294967296
    decide
  · intro i hi hpresent
    rw [sixteenPages_entry hm hi] at hpresent
    cases hpresent
  · exact fun i hi _ _ _ hne => absurd (sixteenPages_table hm hi) hne
  · exact fun i hi hne => absurd (sixteenPages_table hm hi) hne
  · show sixteenFrames.physicalBitmap (frameGroup (pageBase 0)) ≠ 0
    decide
  · exact fun i hi hne => absurd (sixteenPages_table hm hi) hne
  · show sixteenFrames.framesCount ≤ 1048576
    decide

theorem sixteenPages_gets {m : Mem} (hm : ∀ a < 4096, m a = 0) :
    GetsTable (sixteenPages m) 0 0x8000 := by
  have hget : frameGet 2 sixteenFrames = some (0x8000, sixteenFramesOut.frames) := rfl
  exact ⟨by decide, Or.inr ⟨sixteenPages_table hm (by decide), _, hget⟩⟩

/-- The frame is empty: nothing but the page asked for is mapped. -/
theorem pageMap_only_asked_empty :
    ∃ s', pageMap 0x3000 0 (sixteenPages fun _ => 0) = some s'
      ∧ s'.walk 0 = some ⟨0x3000, true, false⟩ ∧ s'.walk 0x1000 = none := by
  have hm : ∀ a < 4096, (fun _ => 0 : Mem) a = 0 := fun _ _ => rfl
  rcases pageMap_only_asked_iff (sixteenPages_ok hm) (by decide : 0x3000 < 4294967296) (by decide)
    (sixteenPages_gets hm) with ⟨s', hcall, hself, hiff⟩
  refine ⟨s', hcall, hself.trans (by decide), ?_⟩
  have hfits : TableFits (sixteenPages fun _ => 0) 0 0x8000 := by
    intro j _ _ hpresent
    have hzero : entry (fun _ => 0) 0x8000 j = 0 := by
      rw [entry_eq]
      unfold Mem.readWord
      simp
    exact absurd hzero (ne_zero_of_present hpresent)
  have hbefore : (sixteenPages fun _ => 0).walk 0x1000 = none := by decide +kernel
  have hword : 0x1000 < 4294967296 := by decide
  have hpage : 0x1000 / 4096 ≠ 0 / 4096 := by decide
  rw [hiff.mpr hfits 0x1000 hword hpage, hbefore]

/-- The frame at `0x8000` with a present entry in its second word. -/
def staleFrame : Mem := fun a => if a = 0x8004 then 1 else 0

/-- The second page, which was not present, is after `page_map` of the first. -/
theorem pageMap_exposes_frame :
    ∃ s', pageMap 0x3000 0 (sixteenPages staleFrame) = some s'
      ∧ (sixteenPages staleFrame).walk 0x1000 = none ∧ s'.walk 0x1000 = some ⟨0, false, false⟩ := by
  have hm : ∀ a < 4096, staleFrame a = 0 := by
    intro a ha
    exact if_neg (by omega)
  rcases (sixteenPages_ok hm).pageMap (by decide : 0x3000 < 4294967296) (by decide)
    (sixteenPages_gets hm) with ⟨s', d, hcall, hmap⟩
  refine ⟨s', hcall, by decide +kernel, ?_⟩
  have hpd : s'.pd = (sixteenPages staleFrame).pd := congrArg pageBase hmap.cr3_eq
  have hentry : entry (sixteenPages staleFrame).mem 0x8000 (tableSlot 0x1000) = 1 := by decide +kernel
  have hregion : s'.walk 0x1000 = translateEntry d 1 := by
    rw [PageState.walk, hpd, hmap.maps.walk_region hmap.table_eq (by decide) (by decide), hentry]
  have hone : present 1 = true ∧ writable 1 = false ∧ user 1 = false ∧ pageBase 1 = 0 := by decide
  rw [hregion, translateEntry, hmap.present_d, hone.1, hone.2.1, hone.2.2.1, hone.2.2.2]
  simp

end DiyOS
