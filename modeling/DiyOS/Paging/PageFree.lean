import DiyOS.Paging.PageUpper
import Mathlib.Data.List.Nodup

/-!
# Mapping pages and freeing them (`page_map_until`, `page_free_above`)

Two loops over consecutive pages: the one maps them to the frames that `frame_get` gives, the other frees
the frames of whatever it finds mapped.

* **`PageWrites`** — one entry after the other is written, and no other entry of a table.
* **`Taken`** — the allocator has given some frames, each the only one of its byte.
* **`mapPages_spec`**, **`unmapPages_spec`** — the two loops.
* **`map_unmap_cancel`** — the one after the other restores the tables, the bitmap and `frames_free`.
* **`page_free_above_iff`** — `page_free_above` returns its counter, which is the new limit exactly if
  there was nothing to free.
-/

namespace DiyOS

open Word PageTable

/-! ## `page_unmap`, `page_free_above`

Pages are unmapped one by one from the end of the heap on, up to the last that `page_upper` has found. -/

/-- `page_unmap`, with the frame that it frees. -/
def pageUnmap (vAddr : Nat) (s : PageState) : Nat × PageState :=
  let tIdx := vAddr >>> 22
  let mem := setEntry s.mem s.pd tIdx (s.directoryEntry tIdx ||| pageFlagPresent ||| pageFlagRw)
  let table := pageBase (entry mem s.pd tIdx)
  let pIdx := (vAddr >>> 12) &&& 0x3FF
  let frame := pageBase (entry mem table pIdx)
  (frame, { s with mem := setEntry mem table pIdx 0, frames := frameFree s.frames frame })

/-- `page_free_above` between two turns of its loop, with the frames it has freed. -/
structure Freeing where
  newPageLimit : Nat
  pages : PageState
  freed : List Nat

/-- One turn of the loop of `page_free_above`. -/
def pageFreeAboveTurn (pageLimit : Nat) (x : Freeing) : Option (Freeing ⊕ Freeing) :=
  if x.newPageLimit ≤ pageLimit then
    let (frame, s) := pageUnmap x.newPageLimit x.pages
    some (.inl ⟨u32 (x.newPageLimit + 0x1000), s, x.freed ++ [frame]⟩)
  else some (.inr x)

/-- `page_free_above`; `newPageLimit` is what it returns. -/
def pageFreeAbove (fuel limit : Nat) (s : PageState) : Option Freeing :=
  Loop.loop (pageFreeAboveTurn (pageUpper s)) fuel ⟨u32 (pageBase limit + 0x1000), s, []⟩

/-! ## The tables of the kernel

All tables above `KERNEL_BASE` are there, and different pages; so an entry of one address is no other's. -/

/-- The slots of the directory for `KERNEL_BASE` to `KERNEL_LIMIT`. -/
def KernelSlot (i : Nat) : Prop := 768 ≤ i ∧ i < 896

theorem kernelSlot_of {v : Nat} (hbase : kernelBase ≤ v) (hlt : v < kernelLimit) :
    KernelSlot (directorySlot v) := by
  unfold KernelSlot directorySlot kernelBase kernelLimit at *
  omega

/-- Every entry of the directory for the kernel is present, with a table of its own. -/
structure KernelTables (s : PageState) : Prop where
  cr3_lt : s.cr3 < 4294967296
  present : ∀ i, KernelSlot i → PageTable.present (s.directoryEntry i) = true
  table_ne_zero : ∀ i, KernelSlot i → s.table i ≠ 0
  apart : ∀ i, KernelSlot i → s.table i ≠ s.pd
  distinct : ∀ i j, KernelSlot i → KernelSlot j → s.table i = s.table j → i = j

/-- From `s` to `s'` the entry for `v` in its table became `e`, and nothing else that matters changed. -/
structure SetsEntry (s s' : PageState) (v e : Nat) : Prop where
  cr3_eq : s'.cr3 = s.cr3
  maps : MapsPage s.mem s'.mem s.pd v (s.table (directorySlot v))
    (mapped (s.directoryEntry (directorySlot v))) e

section

variable {s s₁ s' : PageState} {v a e : Nat}

theorem SetsEntry.pd_eq (h : SetsEntry s s' v e) : s'.pd = s.pd := congrArg pageBase h.cr3_eq

theorem SetsEntry.directoryEntry (h : SetsEntry s s' v e) {i : Nat} (hi : i < 1024) :
    s'.directoryEntry i
      = if i = directorySlot v then mapped (s.directoryEntry i) else s.directoryEntry i := by
  unfold PageState.directoryEntry
  rw [h.pd_eq]
  split
  · next heq =>
    rw [heq, h.maps.directory_self]
    rfl
  · next hne => exact h.maps.directory_other i hi hne

/-- Every slot keeps its table. -/
theorem SetsEntry.table (h : SetsEntry s s' v e) {i : Nat} (hi : i < 1024) : s'.table i = s.table i := by
  unfold PageState.table
  rw [h.directoryEntry hi]
  split
  · exact pageBase_mapped _
  · rfl

theorem SetsEntry.kernelTables (h : SetsEntry s s' v e) (hs : KernelTables s) : KernelTables s' := by
  have htable : ∀ i, KernelSlot i → s'.table i = s.table i := fun i hi =>
    h.table (Nat.lt_trans hi.2 (by decide))
  refine ⟨h.cr3_eq ▸ hs.cr3_lt, ?_, ?_, ?_, ?_⟩
  · intro i hi
    rw [h.directoryEntry (Nat.lt_trans hi.2 (by decide))]
    split
    · exact present_mapped _
    · exact hs.present i hi
  · intro i hi
    rw [htable i hi]
    exact hs.table_ne_zero i hi
  · intro i hi
    rw [htable i hi, h.pd_eq]
    exact hs.apart i hi
  · intro i j hi hj
    rw [htable i hi, htable j hj]
    exact hs.distinct i j hi hj

/-- Another entry of a table. -/
theorem SetsEntry.entry_of_ne (h : SetsEntry s s' v e) {t j : Nat} (ht : t % 4096 = 0) (hpd : t ≠ s.pd)
    (hj : j < 1024) (hne : ¬ (t = s.table (directorySlot v) ∧ j = tableSlot v)) :
    entry s'.mem t j = entry s.mem t j := by
  by_cases htable : t = s.table (directorySlot v)
  · subst htable
    exact h.maps.table_other j hj fun heq => hne ⟨rfl, heq⟩
  · exact h.maps.elsewhere t j ht hpd htable hj

theorem SetsEntry.tableEntry_self (h : SetsEntry s s' v e) (hv : v < 4294967296)
    (hpage : a / 4096 = v / 4096) : s'.tableEntry a = e := by
  rw [PageState.tableEntry_of_page hpage, PageState.tableEntry_eq, h.table (directorySlot_lt hv)]
  exact h.maps.table_self

/-- The entry for another page of the kernel. -/
theorem SetsEntry.tableEntry_of_ne (h : SetsEntry s s' v e) (hs : KernelTables s)
    (hv : KernelSlot (directorySlot v)) (ha : KernelSlot (directorySlot a)) (hpage : a / 4096 ≠ v / 4096) :
    s'.tableEntry a = s.tableEntry a := by
  rw [PageState.tableEntry_eq, PageState.tableEntry_eq, h.table (Nat.lt_trans ha.2 (by decide))]
  refine h.entry_of_ne (s.table_aligned _) (hs.apart _ ha) (tableSlot_lt a) ?_
  rintro ⟨htable, hslot⟩
  exact hpage (same_page_iff.mpr ⟨hs.distinct _ _ ha hv htable, hslot⟩)

/-- A page of the kernel is present by its table's entry. -/
theorem KernelTables.present_iff (hs : KernelTables s) (ha : KernelSlot (directorySlot a)) :
    s.Present a ↔ PageTable.present (s.tableEntry a) = true := by
  rw [PageState.present_iff, hs.present _ ha]
  exact and_iff_right rfl

/-! ## One page

`page_map` and `page_unmap` write one entry. `SetsEntry` says which, and that all others are left. -/

theorem mapInTable_sets (hs : KernelTables s) (hv : KernelSlot (directorySlot v)) (hlt : v < 4294967296)
    {pAddr : Nat} (hp : pAddr < 4294967296) :
    pageMap pAddr v s = some (mapInTable pAddr v s)
      ∧ SetsEntry s (mapInTable pAddr v s) v (mapped (pageBase pAddr)) :=
  ⟨pageMap_of_table (hs.table_ne_zero _ hv), rfl,
    mapInTable_maps hs.cr3_lt hp hlt (hs.apart _ hv)⟩

/-- **`page_unmap`** frees the frame of the page and clears its entry. -/
theorem pageUnmap_sets (hs : KernelTables s) (hv : KernelSlot (directorySlot v)) (hlt : v < 4294967296) :
    (pageUnmap v s).1 = pageBase (s.tableEntry v) ∧ SetsEntry s (pageUnmap v s).2 v 0
      ∧ (pageUnmap v s).2.frames = frameFree s.frames (pageBase (s.tableEntry v))
      ∧ (pageUnmap v s).2.got = s.got := by
  have hpd : s.pd % 4096 = 0 := pageBase_aligned hs.cr3_lt
  have hslot := directorySlot_lt hlt
  have hd : mapped (s.directoryEntry (directorySlot v)) < 4294967296 := mapped_lt (entry_lt _ _ _)
  have htable : pageBase (entry (setEntry s.mem s.pd (directorySlot v)
      (mapped (s.directoryEntry (directorySlot v)))) s.pd (directorySlot v))
        = s.table (directorySlot v) := by
    rw [entry_setEntry_self _ _ _ hd, pageBase_mapped]
    rfl
  have hentry : entry (setEntry s.mem s.pd (directorySlot v)
      (mapped (s.directoryEntry (directorySlot v)))) (s.table (directorySlot v)) (tableSlot v)
        = s.tableEntry v := by
    rw [entry_setEntry_of_ne _ _ hpd (s.table_aligned _) hslot (tableSlot_lt v) (Or.inl (hs.apart _ hv)),
      PageState.tableEntry_eq]
  unfold pageUnmap
  dsimp only
  rw [shiftRight_slot, shiftRight_and_slot, or_flags, htable, hentry]
  refine ⟨rfl, ⟨rfl, ?_⟩, rfl, rfl⟩
  exact MapsPage.of_setEntry hpd (s.table_aligned _) (hs.apart _ hv) hlt hd (by decide)

end

/-! ## Consecutive pages

`PageWrites` follows the loops: one entry after the other, for pages above `KERNEL_BASE` and below the limit. -/

/-- From `s` to `s'` the entries for the pages from `start` on became `es`, one after the other. -/
inductive PageWrites : PageState → Nat → List Nat → PageState → Prop where
  | nil {s : PageState} {start : Nat} : PageWrites s start [] s
  | frames {s s' : PageState} {start : Nat} {es : List Nat} (f : Frames) (got : List Nat)
      (h : PageWrites { s with frames := f, got := got } start es s') : PageWrites s start es s'
  | cons {s s₁ s' : PageState} {start e : Nat} {es : List Nat} (hset : SetsEntry s s₁ start e)
      (hrest : PageWrites s₁ (start + 0x1000) es s') : PageWrites s start (e :: es) s'

/-- The pages from `start` on are `n` pages of the kernel. -/
structure KernelPages (start n : Nat) : Prop where
  base_le : kernelBase ≤ start
  le_limit : start + 0x1000 * n ≤ kernelLimit
  aligned : start % 4096 = 0

theorem KernelPages.head {start n : Nat} (h : KernelPages start (n + 1)) :
    kernelBase ≤ start ∧ start < kernelLimit := by
  have hle := h.le_limit
  exact ⟨h.base_le, by omega⟩

theorem KernelPages.tail {start n : Nat} (h : KernelPages start (n + 1)) :
    KernelPages (start + 0x1000) n := by
  obtain ⟨hbase, hle, halign⟩ := h
  exact ⟨by omega, by omega, by omega⟩

section

variable {s s' : PageState} {start a : Nat} {es : List Nat}

theorem KernelTables.withFrames (hs : KernelTables s) (f : Frames) (got : List Nat) :
    KernelTables { s with frames := f, got := got } :=
  ⟨hs.cr3_lt, hs.present, hs.table_ne_zero, hs.apart, hs.distinct⟩

/-- The directory leads to the same tables. -/
theorem PageWrites.kernelTables (h : PageWrites s start es s') (hs : KernelTables s) :
    KernelTables s' ∧ s'.pd = s.pd ∧ ∀ i < 1024, s'.table i = s.table i := by
  induction h with
  | nil => exact ⟨hs, rfl, fun _ _ => rfl⟩
  | frames f got _ ih => exact ih (hs.withFrames f got)
  | cons hset _ ih =>
    obtain ⟨hs', hpd, htable⟩ := ih (hset.kernelTables hs)
    exact ⟨hs', hpd.trans hset.pd_eq, fun i hi => (htable i hi).trans (hset.table hi)⟩

/-- The entries of the pages that are written, and of the others. -/
theorem PageWrites.tableEntry (h : PageWrites s start es s') (hs : KernelTables s)
    (hpages : KernelPages start es.length) (hbase : kernelBase ≤ a) (hlt : a < kernelLimit) :
    s'.tableEntry a = if start ≤ a then (es[(a - start) / 0x1000]?).getD (s.tableEntry a)
      else s.tableEntry a := by
  induction h with
  | nil => rw [List.getElem?_nil, Option.getD_none, ite_self]
  | frames f got _ ih => exact ih (hs.withFrames f got) hpages
  | @cons s s₁ s' start e es hset _ ih =>
    rw [List.length_cons] at hpages
    obtain ⟨hstart, hend⟩ := hpages.head
    have halign := hpages.aligned
    have hword : start < 4294967296 := Nat.lt_trans hend (by decide)
    rw [ih (hset.kernelTables hs) hpages.tail]
    by_cases hpage : a / 4096 = start / 4096
    · -- the page written first
      have hself := hset.tableEntry_self hword hpage
      have hindex : (a - start) / 0x1000 = 0 := by omega
      rw [if_neg (by omega), if_pos (by omega), hself, hindex, List.getElem?_cons_zero, Option.getD_some]
    · have hother := hset.tableEntry_of_ne hs (kernelSlot_of hstart hend) (kernelSlot_of hbase hlt) hpage
      rw [hother]
      by_cases hle : start + 0x1000 ≤ a
      · have hindex : (a - start) / 0x1000 = (a - (start + 0x1000)) / 0x1000 + 1 := by omega
        rw [if_pos hle, if_pos (by omega), hindex, List.getElem?_cons_succ]
      · rw [if_neg hle, if_neg (by omega)]

/-- No entry but those of the pages changes. -/
theorem PageWrites.entry_of_ne (h : PageWrites s start es s') (hs : KernelTables s)
    (hpages : KernelPages start es.length) {t j : Nat} (ht : t % 4096 = 0) (hpd : t ≠ s.pd) (hj : j < 1024)
    (hne : ∀ v, start ≤ v → v < start + 0x1000 * es.length →
      ¬ (t = s.table (directorySlot v) ∧ j = tableSlot v)) :
    entry s'.mem t j = entry s.mem t j := by
  induction h with
  | nil => rfl
  | frames f got _ ih => exact ih (hs.withFrames f got) hpages hpd hne
  | @cons s s₁ s' start e es hset _ ih =>
    rw [List.length_cons] at hpages hne
    have hlimit := hpages.le_limit
    have hend : kernelLimit = 0xDFFF0000 := rfl
    rw [ih (hset.kernelTables hs) hpages.tail (by rw [hset.pd_eq]; exact hpd)]
    · exact hset.entry_of_ne ht hpd hj (hne start (le_refl _) (by omega))
    · intro v hlo hhi
      rw [hset.table (directorySlot_lt (by omega))]
      exact hne v (by omega) (by omega)

end

/-! ## Frames that are taken and freed

Each page gets a frame of its own, from a byte that was zero. When all of them have been freed, the bitmap is
what it was. -/

/-- `f'` is `f` with the frames `fs` taken, each from a byte that was zero. -/
structure Taken (f : Frames) (fs : List Nat) (f' : Frames) : Prop where
  count : f'.framesCount = f.framesCount
  free : f'.framesFree + fs.length = f.framesFree
  distinct : (fs.map frameGroup).Nodup
  clear : ∀ a ∈ fs, f.physicalBitmap (frameGroup a) = 0
  bit : ∀ a ∈ fs, f'.physicalBitmap (frameGroup a) = frameBit (a / 4096)
  other : ∀ g, (∀ a ∈ fs, frameGroup a ≠ g) → f'.physicalBitmap g = f.physicalBitmap g
  frame : ∀ a ∈ fs, a % 4096 = 0 ∧ a / 4096 < f.framesCount

section

variable {f f₁ f' : Frames} {a : Nat} {fs : List Nat}

theorem Taken.nil : Taken f [] f where
  count := rfl
  free := rfl
  distinct := List.nodup_nil
  clear _ ha := absurd ha List.not_mem_nil
  bit _ ha := absurd ha List.not_mem_nil
  other _ _ := rfl
  frame _ ha := absurd ha List.not_mem_nil

/-- One frame more. -/
theorem Taken.cons (hcount : f.framesCount ≤ 1048576) (hword : f.framesFree < 4294967296)
    (hget : frameGet 2 f = some (a, f₁)) (hne : a ≠ 0) (h : Taken f₁ fs f') : Taken f (a :: fs) f' := by
  have hfree : f.framesFree ≠ 0 := fun hzero => hne (frameGet_none hzero hget).1
  obtain ⟨i, hi, hclear, haddr, hbitmap, hcount₁, hfree₁⟩ := frameGet_spec hfree hget
  have hval : a = i * 4096 := by
    rw [haddr, u32_of_lt (by omega)]
  have hframe : a / 4096 = i := by omega
  have hgroup : frameGroup a = i / 8 := by rw [frameGroup, hframe]
  rw [← hgroup] at hclear hbitmap
  have hself : f₁.physicalBitmap (frameGroup a) = frameBit i := by
    rw [hbitmap, Function.update_self]
  -- the byte of `a` is not zero any more, so that no later frame is from it
  have hapart : ∀ b ∈ fs, frameGroup b ≠ frameGroup a := by
    intro b hb heq
    have hzero := h.clear b hb
    rw [heq, hself] at hzero
    exact frameBit_ne_zero _ hzero
  have hkept : ∀ g, g ≠ frameGroup a → f₁.physicalBitmap g = f.physicalBitmap g := by
    intro g hg
    rw [hbitmap, Function.update_of_ne hg]
  refine ⟨h.count.trans hcount₁, ?_, ?_, ?_, ?_, ?_, ?_⟩
  · have hleft := h.free
    have hone : f₁.framesFree = f.framesFree - 1 := hfree₁.trans (sub32_of_le (by omega) hword)
    rw [List.length_cons]
    omega
  · rw [List.map_cons, List.nodup_cons]
    refine ⟨?_, h.distinct⟩
    rw [List.mem_map]
    rintro ⟨b, hb, heq⟩
    exact hapart b hb heq
  · intro b hb
    rcases List.mem_cons.mp hb with rfl | hb
    · exact hclear
    · rw [← hkept _ (hapart b hb)]
      exact h.clear b hb
  · intro b hb
    rcases List.mem_cons.mp hb with rfl | hb
    · rw [h.other _ hapart, hself, hframe]
    · exact h.bit b hb
  · intro g hg
    obtain ⟨ha, hfs⟩ := List.forall_mem_cons.mp hg
    rw [h.other g hfs, hkept g fun heq => ha heq.symm]
  · intro b hb
    rcases List.mem_cons.mp hb with rfl | hb
    · exact ⟨by omega, by omega⟩
    · rw [← hcount₁]
      exact h.frame b hb

/-- **`frame_free`** gives the oldest of them back. -/
theorem Taken.frameFree (h : Taken f (a :: fs) f') (hword : f.framesFree < 4294967296) :
    Taken f fs (frameFree f' a) := by
  obtain ⟨hapart, hdistinct⟩ := List.nodup_cons.mp h.distinct
  have hne : ∀ b ∈ fs, frameGroup b ≠ frameGroup a := fun b hb heq =>
    hapart (List.mem_map.mpr ⟨b, hb, heq⟩)
  obtain ⟨_, hbelow⟩ := h.frame a List.mem_cons_self
  have hleft := h.free
  rw [List.length_cons] at hleft
  have hgroup : a / 4096 / 8 = frameGroup a := rfl
  have hbit := h.bit a List.mem_cons_self
  have hcount := h.count
  unfold DiyOS.frameFree frameUnsetAddress frameUnset
  rw [if_neg (by omega), hgroup, hbit, frameBit_clear]
  refine ⟨hcount, ?_, hdistinct, ?_, ?_, ?_, ?_⟩
  · show u32 (f'.framesFree + 1) + fs.length = f.framesFree
    rw [u32_of_lt (by omega)]
    omega
  · exact fun b hb => h.clear b (List.mem_cons_of_mem _ hb)
  · intro b hb
    show Function.update f'.physicalBitmap (frameGroup a) 0 (frameGroup b) = _
    rw [Function.update_of_ne (hne b hb)]
    exact h.bit b (List.mem_cons_of_mem _ hb)
  · intro g hg
    show Function.update f'.physicalBitmap (frameGroup a) 0 g = _
    -- the byte of the freed frame is zero again, as it was before it was taken
    by_cases heq : g = frameGroup a
    · rw [heq, Function.update_self, h.clear a List.mem_cons_self]
    · rw [Function.update_of_ne heq]
      exact h.other g (List.forall_mem_cons.mpr ⟨fun heq' => heq heq'.symm, hg⟩)
  · exact fun b hb => h.frame b (List.mem_cons_of_mem _ hb)

/-- All of them freed, the bitmap and the counter are what they were. -/
theorem Taken.freeAll (h : Taken f fs f') (hword : f.framesFree < 4294967296) :
    (fs.foldl DiyOS.frameFree f').physicalBitmap = f.physicalBitmap
      ∧ (fs.foldl DiyOS.frameFree f').framesFree = f.framesFree := by
  induction fs generalizing f' with
  | nil => exact ⟨funext fun g => h.other g fun _ ha => absurd ha List.not_mem_nil, h.free⟩
  | cons a fs ih => exact ih (h.frameFree hword)

end

/-! ## The loops

Both loops are inductions on the number of pages. -/

section

variable {s : PageState} {n start fuel : Nat}

/-- **The loop of `page_map_until`** over `n` pages, with frames enough. -/
theorem mapPages_spec {newLimit : Nat} (hs : KernelTables s) (hpages : KernelPages start n)
    (hend : start + 0x1000 * n = newLimit + 0x1000) (hcount : s.frames.framesCount ≤ 1048576)
    (hword : s.frames.framesFree < 4294967296) (hframes : Supplies n s.frames) (hfuel : n < fuel) :
    ∃ fs s', Loop.loop (pageMapUntilTurn newLimit) fuel (start, s) = some (newLimit + 0x1000, s')
      ∧ fs.length = n ∧ PageWrites s start (fs.map mapped) s' ∧ Taken s.frames fs s'.frames := by
  have hlimit := hpages.le_limit
  have hkernel : kernelLimit = 0xDFFF0000 := rfl
  obtain ⟨fuel, rfl⟩ : ∃ k, fuel = k + 1 := ⟨fuel - 1, by omega⟩
  induction n generalizing s start fuel with
  | zero =>
    refine ⟨[], s, ?_, rfl, PageWrites.nil, Taken.nil⟩
    rw [Loop.loop, pageMapUntilTurn, if_neg (by omega), u32_of_lt (by omega)]
  | succ n ih =>
    -- each turn takes the next of the frames that the allocator supplies
    obtain ⟨a, f, hget, hne, hrest⟩ := hframes
    obtain ⟨halign, hlt, _, _, hsame⟩ := frameGet_fresh hcount hget hne
    obtain ⟨hbase, hbelow⟩ := hpages.head
    let s₁ : PageState := { s with frames := f, got := a :: s.got }
    have hcall : s.frameGet = some (a, s₁) := by
      unfold PageState.frameGet
      rw [hget]
    have hs₁ : KernelTables s₁ := hs.withFrames f (a :: s.got)
    obtain ⟨hmap, hset⟩ := mapInTable_sets hs₁ (kernelSlot_of hbase hbelow) (show start < 4294967296 by omega) hlt
    rw [pageBase_of_aligned hlt halign] at hset
    have hfree : s.frames.framesFree ≠ 0 := fun hzero => hne (frameGet_none hzero hget).1
    obtain ⟨_, _, _, _, _, _, hfree₁⟩ := frameGet_spec hfree hget
    have htail := hpages.tail
    obtain ⟨fs, s', hloop, hlength, hwrites, htaken⟩ := @ih (mapInTable a start s₁) (start + 0x1000)
      (hset.kernelTables hs₁) htail (by omega) (hsame ▸ hcount)
      (show f.framesFree < 4294967296 by rw [hfree₁]; exact u32_lt _) hrest htail.le_limit (fuel - 1)
      (by omega)
    refine ⟨a :: fs, s', ?_, by rw [List.length_cons, hlength], ?_, htaken.cons hcount hword hget hne⟩
    · rw [Loop.loop, pageMapUntilTurn, if_pos (by omega), hcall]
      dsimp only
      rw [if_neg hne, hmap, u32_of_lt (show start + 0x1000 < 4294967296 by omega)]
      rw [show fuel - 1 + 1 = fuel by omega] at hloop
      exact hloop
    · exact PageWrites.frames f (a :: s.got) (PageWrites.cons hset hwrites)

/-- The frames that the entries for `n` pages lead to. -/
def pageFrames (s : PageState) (start n : Nat) : List Nat :=
  (List.range n).map fun i => pageBase (s.tableEntry (start + 0x1000 * i))

theorem pageFrames_succ (s : PageState) (start n : Nat) : pageFrames s start (n + 1)
    = pageBase (s.tableEntry start) :: pageFrames s (start + 0x1000) n := by
  unfold pageFrames
  rw [List.range_succ_eq_map, List.map_cons, List.map_map, Nat.mul_zero, Nat.add_zero]
  congr 1
  refine List.map_congr_left fun i _ => ?_
  rw [Function.comp_apply, show start + 0x1000 * i.succ = start + 0x1000 + 0x1000 * i by omega]

/-- **The loop of `page_free_above`** over `n` pages: each frame is freed once, and each entry cleared. -/
theorem unmapPages_spec {pageLimit : Nat} (hs : KernelTables s) (hpages : KernelPages start n)
    (hend : start + 0x1000 * n = pageLimit + 0x1000) (hfuel : n < fuel) (freed : List Nat) :
    ∃ s', Loop.loop (pageFreeAboveTurn pageLimit) fuel ⟨start, s, freed⟩
        = some ⟨pageLimit + 0x1000, s', freed ++ pageFrames s start n⟩
      ∧ PageWrites s start (List.replicate n 0) s'
      ∧ s'.frames = (pageFrames s start n).foldl frameFree s.frames := by
  have hkernel : kernelLimit = 0xDFFF0000 := rfl
  have hlimit := hpages.le_limit
  obtain ⟨fuel, rfl⟩ : ∃ k, fuel = k + 1 := ⟨fuel - 1, by omega⟩
  induction n generalizing s start fuel freed with
  | zero =>
    refine ⟨s, ?_, PageWrites.nil, rfl⟩
    rw [Loop.loop, pageFreeAboveTurn, if_neg (show ¬ start ≤ pageLimit by omega)]
    simp only [pageFrames, List.range_zero, List.map_nil, List.append_nil]
    rw [show start = pageLimit + 0x1000 by omega]
  | succ n ih =>
    obtain ⟨hbase, hbelow⟩ := hpages.head
    have hslot := kernelSlot_of hbase hbelow
    obtain ⟨hframe, hset, hfree, _⟩ := pageUnmap_sets hs hslot (show start < 4294967296 by omega)
    have htail := hpages.tail
    obtain ⟨s', hloop, hwrites, hframes⟩ := @ih (pageUnmap start s).2 (start + 0x1000)
      (hset.kernelTables hs) htail (by omega) (freed ++ [(pageUnmap start s).1]) htail.le_limit (fuel - 1)
      (by omega)
    -- the pages behind this one are still as they were
    have hkept : pageFrames (pageUnmap start s).2 (start + 0x1000) n = pageFrames s (start + 0x1000) n := by
      refine List.map_congr_left fun i hi => ?_
      have hi := List.mem_range.mp hi
      have halign := hpages.aligned
      rw [hset.tableEntry_of_ne hs hslot (kernelSlot_of (by omega) (by omega)) (by omega)]
    rw [hkept, hframe] at hloop
    rw [hkept, hfree] at hframes
    refine ⟨s', ?_, PageWrites.cons hset hwrites, by rw [pageFrames_succ]; exact hframes⟩
    rw [Loop.loop, pageFreeAboveTurn, if_pos (show start ≤ pageLimit by omega)]
    dsimp only
    rw [u32_of_lt (show start + 0x1000 < 4294967296 by omega), hframe, pageFrames_succ]
    rw [show fuel - 1 + 1 = fuel by omega, List.append_assoc, List.singleton_append] at hloop
    exact hloop

end

/-! ## The last page

`page_upper` counts from `KERNEL_BASE` up to the first page that is not mapped. -/

/-- The word that `page_upper` reads for the page behind `last` is 0, or that page is behind the kernel. -/
def NextZero (s : PageState) (last : Nat) : Prop :=
  last / 4096 * 4096 + 0x1000 < kernelLimit → s.tableEntry (last / 4096 * 4096 + 0x1000) = 0

/-- `page_upper`, where the entries up to `last` are not 0. -/
theorem pageUpper_ge {s : PageState} {last : Nat} (hbase : kernelBase ≤ last) (hlt : last < kernelLimit)
    (hentries : ∀ a, kernelBase ≤ a → a < kernelLimit → a / 4096 ≤ last / 4096 → s.tableEntry a ≠ 0) :
    ∃ n, pageUpper s = last / 4096 * 4096 + 0x1000 * n
      ∧ KernelPages (last / 4096 * 4096 + 0x1000) n ∧ (n = 0 ↔ NextZero s last) := by
  have hends : kernelLimit = 0xDFFF0000 ∧ kernelBase = 0xC0000000 := ⟨rfl, rfl⟩
  obtain ⟨e, hupper, hge, hle, halign, hbetween, hend⟩ :=
    @pageUpperLoop_spec s kernelBase (le_refl _) (by decide) (by decide)
  have hbehind : last / 4096 * 4096 + 0x1000 ≤ e := by
    by_contra hbefore
    exact hentries e hge (by omega) (by omega) (hend (by omega))
  obtain ⟨n, hn⟩ : ∃ n, e = last / 4096 * 4096 + 0x1000 + 0x1000 * n :=
    ⟨(e - (last / 4096 * 4096 + 0x1000)) / 0x1000, by omega⟩
  have hstart : kernelBase ≤ last / 4096 * 4096 + 0x1000 := by omega
  have hlimit : last / 4096 * 4096 + 0x1000 + 0x1000 * n ≤ kernelLimit := by rw [← hn]; exact hle
  have haligned : (last / 4096 * 4096 + 0x1000) % 4096 = 0 := by omega
  have hpages : KernelPages (last / 4096 * 4096 + 0x1000) n := ⟨hstart, hlimit, haligned⟩
  refine ⟨n, ?_, hpages, ?_, ?_⟩
  · unfold pageUpper
    omega
  · intro hzero hnext
    have hlast : last / 4096 * 4096 + 0x1000 = e := by omega
    rw [hlast] at hnext ⊢
    exact hend hnext
  · intro hzero
    by_contra hne
    have hinside : last / 4096 * 4096 + 0x1000 < e := by omega
    have hread := hzero (Nat.lt_of_lt_of_le hinside hle)
    exact hbetween _ (by omega) hinside hread

/-- The entries up to `last` are not 0, and the others are: `page_upper` returns the page of `last`. -/
theorem pageUpper_eq {s : PageState} {last : Nat} (hbase : kernelBase ≤ last) (hlt : last < kernelLimit)
    (hentries : ∀ a, kernelBase ≤ a → a < kernelLimit →
      (s.tableEntry a ≠ 0 ↔ a / 4096 ≤ last / 4096)) : pageUpper s = last / 4096 * 4096 := by
  obtain ⟨n, hupper, _, hzero⟩ := pageUpper_ge hbase hlt fun a ha hlt hle => (hentries a ha hlt).mpr hle
  have hn : n = 0 := by
    refine hzero.mpr fun hnext => ?_
    by_contra hne
    have hle := (hentries _ (by omega) hnext).mp hne
    omega
  rw [hupper, hn, Nat.mul_zero, Nat.add_zero]

/-! ## A directory with all tables of the kernel

An example, computed entry by entry. -/

/-- The directory at `0x1000` with tables from `0x2000` on for the kernel; its first `n` pages are mapped
to frames from `0xF0000` on. -/
def kernelMem (n : Nat) : Mem := fun a =>
  if a < 0x1C00 then 0
  else if a < 0x1E00 then tableByte 0x2003 (a - 0x1C00)
  else if a < 0x2000 then 0
  else if a < 0x2000 + 4 * n then tableByte 0xF0003 (a - 0x2000)
  else 0

/-- 2 MB of memory, of which the first is reserved, as `frame_setup` leaves them. -/
def secondMegabyte : Frames where
  physicalBitmap g := if g < 32 then 0x80 else 0
  framesCount := 512
  framesFree := 256
  frameIdx := 256

def kernelPages (n : Nat) : PageState := ⟨kernelMem n, 0x1000, secondMegabyte, []⟩

section

variable {n : Nat} (hn : n ≤ 1024)

theorem kernelPages_directory (n : Nat) {i : Nat} (hi : KernelSlot i) :
    (kernelPages n).directoryEntry i = 0x2003 + (i - 768) * 4096 := by
  obtain ⟨hlo, hhi⟩ := hi
  have hpd : pageBase 0x1000 = 0x1000 := by decide
  show entry (kernelMem n) (pageBase 0x1000) i = _
  rw [entry_eq, hpd]
  apply readWord_of_bytes (by omega)
  intro k hk
  have hoffset : 0x1000 + 4 * i + k - 0x1C00 = 4 * (i - 768) + k := by omega
  have hdiv : (4 * (i - 768) + k) / 4 = i - 768 := by omega
  have hmod : (4 * (i - 768) + k) % 4 = k := by omega
  unfold kernelMem
  rw [if_neg (by omega), if_pos (by omega), hoffset, tableByte, hdiv, hmod]

theorem kernelPages_table (n : Nat) {i : Nat} (hi : KernelSlot i) :
    (kernelPages n).table i = 0x2000 + (i - 768) * 4096 := by
  have hlt := hi.2
  rw [PageState.table, kernelPages_directory n hi, pageBase_eq (by omega)]
  omega

theorem kernelPages_tables (n : Nat) : KernelTables (kernelPages n) := by
  have hpd : (kernelPages n).pd = 0x1000 := show pageBase 0x1000 = 0x1000 by decide
  refine ⟨show 0x1000 < 4294967296 by decide, ?_, ?_, ?_, ?_⟩
  · intro i hi
    rw [kernelPages_directory n hi, PageTable.present, Nat.testBit_zero, decide_eq_true_eq]
    omega
  · intro i hi
    rw [kernelPages_table n hi]
    omega
  · intro i hi
    rw [kernelPages_table n hi, hpd]
    omega
  · intro i j hi hj heq
    rw [kernelPages_table n hi, kernelPages_table n hj] at heq
    obtain ⟨hlo, _⟩ := hi
    obtain ⟨hlo', _⟩ := hj
    omega

include hn

/-- The pages up to `n` are mapped. -/
theorem kernelPages_tableEntry {a : Nat} (hbase : kernelBase ≤ a) (hlt : a < kernelLimit) :
    (kernelPages n).tableEntry a
      = if a / 4096 < 786432 + n then 0xF0003 + (a / 4096 - 786432) * 4096 else 0 := by
  have hends : kernelLimit = 0xDFFF0000 ∧ kernelBase = 0xC0000000 := ⟨rfl, rfl⟩
  have hpage : a / 4096 = directorySlot a * 1024 + tableSlot a := by
    unfold directorySlot tableSlot
    omega
  have hj := tableSlot_lt a
  have hslot := kernelSlot_of hbase hlt
  rw [PageState.tableEntry_eq, kernelPages_table n hslot, hpage]
  obtain ⟨hlo, hhi⟩ := hslot
  generalize directorySlot a = i at hlo hhi
  generalize tableSlot a = j at hj
  show entry (kernelMem n) _ j = _
  rw [entry_eq]
  split
  · next hin =>
    obtain rfl : i = 768 := by omega
    have hindex : 768 * 1024 + j - 786432 = j := by omega
    rw [hindex, Nat.sub_self, Nat.zero_mul, Nat.add_zero]
    apply readWord_of_bytes (by omega)
    intro k hk
    have hoffset : 0x2000 + 4 * j + k - 0x2000 = 4 * j + k := by
      rw [Nat.add_assoc, Nat.add_sub_cancel_left]
    have hdiv : (4 * j + k) / 4 = j := by omega
    have hmod : (4 * j + k) % 4 = k := by omega
    unfold kernelMem
    rw [if_neg (by omega), if_neg (by omega), if_neg (by omega), if_pos (by omega), hoffset, tableByte,
      hdiv, hmod]
  · next hout =>
    apply readWord_of_bytes (by decide)
    intro k _
    unfold kernelMem
    rw [if_neg (by omega), if_neg (by omega), if_neg (by omega), if_neg (by omega), Nat.zero_div]
    rfl

theorem kernelPages_present {a : Nat} (hbase : kernelBase ≤ a) (hlt : a < kernelLimit) :
    (kernelPages n).Present a ↔ a / 4096 < 786432 + n := by
  rw [(kernelPages_tables n).present_iff (kernelSlot_of hbase hlt), kernelPages_tableEntry hn hbase hlt,
    PageTable.present, Nat.testBit_zero, decide_eq_true_eq]
  split <;> omega

theorem kernelPages_absent {a : Nat} (hbase : kernelBase ≤ a) (hlt : a < kernelLimit)
    (h : ¬ (kernelPages n).Present a) : (kernelPages n).tableEntry a = 0 := by
  rw [kernelPages_present hn hbase hlt] at h
  rw [kernelPages_tableEntry hn hbase hlt, if_neg h]

end

/-! ## Mapping and freeing

One after the other, `page_map_until` and `page_free_above` restore the entries of the tables, the bitmap and
`frames_free`. -/

/-- The pages behind `U` up to that of `L` are mapped to the frames `fs`, which were free. -/
structure MapsBehind (s s' : PageState) (U L : Nat) (fs : List Nat) : Prop where
  length_eq : fs.length = L / 4096 - U / 4096
  nodup : fs.Nodup
  walk_eq : ∀ v, U / 4096 < v / 4096 → v / 4096 ≤ L / 4096 →
    (s'.walk v).map Translation.frame = fs[v / 4096 - U / 4096 - 1]?
  fresh : ∀ reserved out, FrameInv reserved ⟨s.frames, out⟩ → ∀ a ∈ fs, a ∉ reserved ∧ a ∉ out

/-- Every entry of a table, the bitmap and `frames_free` are the same. -/
structure Restored (s s' : PageState) : Prop where
  entry_eq : ∀ t j, t % 4096 = 0 → t ≠ s.pd → j < 1024 → entry s'.mem t j = entry s.mem t j
  bitmap_eq : s'.frames.physicalBitmap = s.frames.physicalBitmap
  free_eq : s'.frames.framesFree = s.frames.framesFree

section

variable {s s₁ s₂ : PageState} {start : Nat} {fs : List Nat}

/-- The pages that were mapped are freed again. -/
theorem PageWrites.restored (hs : KernelTables s) (hpages : KernelPages start fs.length)
    (hmap : PageWrites s start (fs.map mapped) s₁) (hunmap : PageWrites s₁ start (List.replicate fs.length 0) s₂)
    (hzero : ∀ v, start ≤ v → v < start + 0x1000 * fs.length → s.tableEntry v = 0) {t j : Nat}
    (ht : t % 4096 = 0) (hpd : t ≠ s.pd) (hj : j < 1024) : entry s₂.mem t j = entry s.mem t j := by
  have hends : kernelLimit = 0xDFFF0000 := rfl
  have hlimit := hpages.le_limit
  have hbase := hpages.base_le
  obtain ⟨hs₁, hpd₁, htable₁⟩ := hmap.kernelTables hs
  obtain ⟨_, _, htable₂⟩ := hunmap.kernelTables hs₁
  have hlength : (fs.map mapped).length = fs.length := List.length_map _
  have hlength' : (List.replicate fs.length 0).length = fs.length := List.length_replicate
  -- an entry of one of the pages was 0 and is 0 again; the others have not been written
  by_cases hpage : ∃ v, start ≤ v ∧ v < start + 0x1000 * fs.length
      ∧ t = s.table (directorySlot v) ∧ j = tableSlot v
  · obtain ⟨v, hlo, hhi, rfl, rfl⟩ := hpage
    have hentry := hunmap.tableEntry hs₁ (by rw [hlength']; exact hpages) (show kernelBase ≤ v by omega)
      (show v < kernelLimit by omega)
    have hindex : (v - start) / 0x1000 < fs.length := by omega
    rw [if_pos hlo, List.getElem?_replicate, if_pos hindex, Option.getD_some, PageState.tableEntry_eq,
      htable₂ _ (directorySlot_lt (by omega)), htable₁ _ (directorySlot_lt (by omega))] at hentry
    rw [hentry, ← PageState.tableEntry_eq, hzero v hlo hhi]
  · have hne : ∀ v, start ≤ v → v < start + 0x1000 * fs.length →
        ¬ (t = s.table (directorySlot v) ∧ j = tableSlot v) :=
      fun v hlo hhi heq => hpage ⟨v, hlo, hhi, heq⟩
    rw [hunmap.entry_of_ne hs₁ (by rw [hlength']; exact hpages) ht (by rw [hpd₁]; exact hpd) hj ?_,
      hmap.entry_of_ne hs (by rw [hlength]; exact hpages) ht hpd hj (by rw [hlength]; exact hne)]
    intro v hlo hhi
    rw [hlength'] at hhi
    rw [htable₁ _ (directorySlot_lt (by omega))]
    exact hne v hlo hhi

/-- What the walk finds for a page of the kernel. -/
theorem KernelTables.walk_frame {v : Nat} (hs : KernelTables s) (hv : KernelSlot (directorySlot v)) :
    (s.walk v).map Translation.frame
      = if PageTable.present (s.tableEntry v) then some (pageBase (s.tableEntry v)) else none := by
  have hwalk : s.walk v = translateEntry (s.directoryEntry (directorySlot v)) (s.tableEntry v) := by
    rw [PageState.tableEntry_eq]
    rfl
  rw [hwalk, translateEntry, hs.present _ hv, Bool.true_and]
  split <;> rfl

/-- The entries behind the page of `last`. -/
theorem PageWrites.tableEntry_behind {last a : Nat} {es : List Nat}
    (h : PageWrites s (last / 4096 * 4096 + 0x1000) es s₁) (hs : KernelTables s)
    (hpages : KernelPages (last / 4096 * 4096 + 0x1000) es.length) (hbase : kernelBase ≤ a)
    (hlt : a < kernelLimit) : s₁.tableEntry a = if last / 4096 < a / 4096
      then (es[a / 4096 - last / 4096 - 1]?).getD (s.tableEntry a) else s.tableEntry a := by
  rw [h.tableEntry hs hpages hbase hlt]
  by_cases hle : last / 4096 < a / 4096
  · have hindex : (a - (last / 4096 * 4096 + 0x1000)) / 0x1000 = a / 4096 - last / 4096 - 1 := by omega
    rw [if_pos hle, if_pos (by omega), hindex]
  · rw [if_neg hle, if_neg (by omega)]

/-- The entries of pages that have been mapped behind `U`, where all entries behind it were 0. -/
theorem PageWrites.entries_behind {U : Nat} (hs : KernelTables s)
    (hmap : PageWrites s (U / 4096 * 4096 + 0x1000) (fs.map mapped) s₁)
    (hpages : KernelPages (U / 4096 * 4096 + 0x1000) fs.length)
    (hentries : ∀ a, kernelBase ≤ a → a < kernelLimit → (s.tableEntry a ≠ 0 ↔ a / 4096 ≤ U / 4096))
    {a : Nat} (hbase : kernelBase ≤ a) (hlt : a < kernelLimit) :
    s₁.tableEntry a ≠ 0 ↔ a / 4096 ≤ U / 4096 + fs.length := by
  have hlength : (fs.map mapped).length = fs.length := List.length_map _
  have hold := hentries a hbase hlt
  rw [hmap.tableEntry_behind hs (by rw [hlength]; exact hpages) hbase hlt]
  by_cases hbehind : U / 4096 < a / 4096
  · rw [if_pos hbehind]
    by_cases hin : a / 4096 - U / 4096 - 1 < fs.length
    · rw [List.getElem?_map, List.getElem?_eq_getElem hin]
      exact iff_of_true (ne_zero_of_present (present_mapped _)) (by omega)
    · rw [List.getElem?_eq_none (by rw [hlength]; omega), Option.getD_none]
      omega
  · rw [if_neg hbehind]
    omega

/-- The frames of the pages that have been mapped. -/
theorem PageWrites.pageFrames_eq {U : Nat} (hs : KernelTables s)
    (hmap : PageWrites s (U / 4096 * 4096 + 0x1000) (fs.map mapped) s₁)
    (hpages : KernelPages (U / 4096 * 4096 + 0x1000) fs.length)
    (hframes : ∀ a ∈ fs, a % 4096 = 0 ∧ a < 4294967296) :
    pageFrames s₁ (U / 4096 * 4096 + 0x1000) fs.length = fs := by
  have hlength : (fs.map mapped).length = fs.length := List.length_map _
  have hlimit := hpages.le_limit
  have hbase := hpages.base_le
  unfold pageFrames
  refine List.ext_getElem (by rw [List.length_map, List.length_range]) fun i _ hi => ?_
  obtain ⟨halign, hword⟩ := hframes fs[i] (List.getElem_mem hi)
  rw [List.getElem_map, List.getElem_range]
  generalize hv : U / 4096 * 4096 + 0x1000 + 0x1000 * i = v
  have hlow : kernelBase ≤ v := by omega
  have hhigh : v < kernelLimit := by omega
  have hindex : v / 4096 - U / 4096 - 1 = i := by omega
  have hentry := hmap.tableEntry_behind hs (by rw [hlength]; exact hpages) hlow hhigh
  rw [if_pos (by omega), hindex, List.getElem?_map, List.getElem?_eq_getElem hi, Option.map_some,
    Option.getD_some] at hentry
  rw [hentry, pageBase_mapped, pageBase_of_aligned hword halign]

/-- What has been mapped behind `U`. -/
theorem PageWrites.mapsBehind {U L : Nat} (hs : KernelTables s)
    (hmap : PageWrites s (U / 4096 * 4096 + 0x1000) (fs.map mapped) s₁)
    (hpages : KernelPages (U / 4096 * 4096 + 0x1000) fs.length)
    (hframes : ∀ a ∈ fs, a % 4096 = 0 ∧ a < 4294967296) (htaken : Taken s.frames fs s₁.frames)
    (hlength : fs.length = L / 4096 - U / 4096) (hbase : kernelBase ≤ U) (hL : L < kernelLimit) :
    MapsBehind s s₁ U L fs := by
  have hends : kernelLimit = 0xDFFF0000 ∧ kernelBase = 0xC0000000 := ⟨rfl, rfl⟩
  obtain ⟨hs₁, _, _⟩ := hmap.kernelTables hs
  refine ⟨hlength, List.Nodup.of_map _ htaken.distinct, ?_, ?_⟩
  · intro v hlo hhi
    have hv : kernelBase ≤ v ∧ v < kernelLimit := by omega
    have hin : v / 4096 - U / 4096 - 1 < fs.length := by omega
    obtain ⟨halign, hword⟩ := hframes _ (List.getElem_mem hin)
    rw [hs₁.walk_frame (kernelSlot_of hv.1 hv.2), hmap.tableEntry_behind hs
      (by rw [List.length_map]; exact hpages) hv.1 hv.2, if_pos hlo, List.getElem?_map,
      List.getElem?_eq_getElem hin, Option.map_some, Option.getD_some, present_mapped, if_pos rfl,
      pageBase_mapped, pageBase_of_aligned hword halign]
  · intro reserved out hinv a ha
    exact (hinv.clear_iff (frameGroup a)).mp (htaken.clear a ha) a rfl

end

/-- **Mapping and freeing cancel.** Let every directory entry of the kernel be present, with a table of
its own, and let exactly the pages from `KERNEL_BASE` to `U` be present, the entries of the others 0.
With frames enough, `page_map_until(L)` returns the end of `L`'s page and maps the pages behind `U` up to
it, each to another frame that was free; and `page_free_above(U)` then restores the entries of the tables,
the bitmap and `frames_free`. -/
theorem map_unmap_cancel {s : PageState} (hs : KernelTables s) {U L fuel : Nat} (hbase : kernelBase ≤ U)
    (hUL : U < L) (hL : L < kernelLimit)
    (hpresent : ∀ a, kernelBase ≤ a → a < kernelLimit → (s.Present a ↔ a / 4096 ≤ U / 4096))
    (habsent : ∀ a, kernelBase ≤ a → a < kernelLimit → ¬ s.Present a → s.tableEntry a = 0)
    (hcount : s.frames.framesCount ≤ 1048576) (hword : s.frames.framesFree < 4294967296)
    (hframes : Supplies (L / 4096 - U / 4096) s.frames) (hfuel : 0x20000 ≤ fuel) :
    ∃ fs s₁ x, pageMapUntil fuel L s = some (pageBase L + 0x1000, s₁) ∧ MapsBehind s s₁ U L fs
      ∧ pageFreeAbove fuel U s₁ = some x ∧ Restored s x.pages := by
  have hends : kernelLimit = 0xDFFF0000 ∧ kernelBase = 0xC0000000 := ⟨rfl, rfl⟩
  have hpageL : pageBase L = L / 4096 * 4096 := pageBase_eq (by omega)
  have hpageU : pageBase U = U / 4096 * 4096 := pageBase_eq (by omega)
  have hstart : u32 (U / 4096 * 4096 + 0x1000) = U / 4096 * 4096 + 0x1000 := u32_of_lt (by omega)
  have hentries : ∀ a, kernelBase ≤ a → a < kernelLimit → (s.tableEntry a ≠ 0 ↔ a / 4096 ≤ U / 4096) := by
    intro a ha hlt
    rw [← hpresent a ha hlt]
    refine ⟨fun hne => ?_, PageState.tableEntry_ne_zero⟩
    by_contra hnot
    exact hne (habsent a ha hlt hnot)
  have hkernel : KernelPages (U / 4096 * 4096 + 0x1000) (L / 4096 - U / 4096) := by
    have hlow : kernelBase ≤ U / 4096 * 4096 + 0x1000 := by omega
    have hhigh : U / 4096 * 4096 + 0x1000 + 0x1000 * (L / 4096 - U / 4096) ≤ kernelLimit := by omega
    have halign : (U / 4096 * 4096 + 0x1000) % 4096 = 0 := by omega
    exact ⟨hlow, hhigh, halign⟩
  have hend : U / 4096 * 4096 + 0x1000 + 0x1000 * (L / 4096 - U / 4096) = L / 4096 * 4096 + 0x1000 := by
    omega
  have hturns : L / 4096 - U / 4096 < fuel := by omega
  -- the pages are mapped
  obtain ⟨fs, s₁, hcall, hlength, hmap, htaken⟩ := mapPages_spec hs hkernel hend hcount hword hframes hturns
  rw [← hlength] at hkernel hend hturns
  obtain ⟨hs₁, hpd₁, htable₁⟩ := hmap.kernelTables hs
  have haligned : ∀ a ∈ fs, a % 4096 = 0 ∧ a < 4294967296 := by
    intro a ha
    obtain ⟨halign, hbelow⟩ := htaken.frame a ha
    exact ⟨halign, by omega⟩
  have hupper₁ : pageUpper s₁ = L / 4096 * 4096 := by
    refine pageUpper_eq (Nat.le_trans hbase (Nat.le_of_lt hUL)) hL fun a ha hlt => ?_
    rw [hmap.entries_behind hs hkernel hentries ha hlt]
    omega
  -- and they are freed
  obtain ⟨s₂, hfree, hunmap, hfrees⟩ := @unmapPages_spec s₁ _ _ fuel (L / 4096 * 4096) hs₁ hkernel hend hturns []
  rw [hmap.pageFrames_eq hs hkernel haligned] at hfrees
  obtain ⟨hbitmap, hfreeEq⟩ := htaken.freeAll hword
  refine ⟨fs, s₁, ⟨L / 4096 * 4096 + 0x1000, s₂, [] ++ pageFrames s₁ (U / 4096 * 4096 + 0x1000) fs.length⟩,
    ?_, hmap.mapsBehind hs hkernel haligned htaken hlength hbase hL, ?_, ?_, ?_, ?_⟩
  · unfold pageMapUntil
    rw [pageUpper_eq hbase (by omega) hentries, hstart, hpageL]
    exact hcall
  · unfold pageFreeAbove
    rw [hupper₁, hpageU, hstart]
    exact hfree
  · intro t j ht hpd hj
    refine hmap.restored hs hkernel hunmap ?_ ht hpd hj
    intro v hlo hhi
    by_contra hne
    have hle := (hentries v (by omega) (by omega)).mp hne
    omega
  · rw [hfrees]
    exact hbitmap
  · rw [hfrees]
    exact hfreeEq

/-- One page is mapped and freed. -/
theorem map_unmap_cancel_second : ∃ fs s₁ x,
    pageMapUntil 0x20000 0xC0001000 (kernelPages 1) = some (pageBase 0xC0001000 + 0x1000, s₁)
      ∧ MapsBehind (kernelPages 1) s₁ 0xC0000000 0xC0001000 fs
      ∧ pageFreeAbove 0x20000 0xC0000000 s₁ = some x ∧ Restored (kernelPages 1) x.pages := by
  refine map_unmap_cancel (kernelPages_tables 1) (by decide) (by decide) (by decide) ?_
    (fun a => kernelPages_absent (by decide)) (by decide) (by decide) ?_ (Nat.le_refl _)
  · intro a hbase hlt
    rw [kernelPages_present (by decide) hbase hlt]
    exact Nat.lt_succ_iff
  · have hget : frameGet 2 secondMegabyte
        = some (0x100000, ⟨Function.update secondMegabyte.physicalBitmap 32 1, 512, 255, 257⟩) := rfl
    exact ⟨_, _, hget, by decide, trivial⟩

/-! ## Shrinking

What `page_free_above` does, and what it returns: its own counter. -/

/-- What is to be left of the pages up to `U`: those up to `L`, the frames of the others freed once each,
and the end of `L`'s page as the new limit. -/
structure Shrinks (s : PageState) (L U : Nat) (x : Freeing) : Prop where
  present : ∀ a, kernelBase ≤ a → a < kernelLimit → (x.pages.Present a ↔ a / 4096 ≤ L / 4096)
  freed : x.freed = pageFrames s (L / 4096 * 4096 + 0x1000) (U / 4096 - L / 4096)
  frames : x.pages.frames = x.freed.foldl frameFree s.frames
  limit : x.newPageLimit = pageBase L + 0x1000

/-- The loop counts up to the page behind the last one. -/
theorem freeAbove_counter {pageLimit n fuel : Nat} {x : Freeing} (hlimit : pageLimit < kernelLimit)
    (hend : x.newPageLimit + 0x1000 * n = pageLimit + 0x1000) (hfuel : n < fuel) :
    ∃ x', Loop.loop (pageFreeAboveTurn pageLimit) fuel x = some x'
      ∧ x'.newPageLimit = pageLimit + 0x1000 ∧ (n = 0 → x' = x) := by
  have hkernel : kernelLimit = 0xDFFF0000 := rfl
  obtain ⟨fuel, rfl⟩ : ∃ k, fuel = k + 1 := ⟨fuel - 1, by omega⟩
  induction n generalizing x fuel with
  | zero =>
    refine ⟨x, ?_, by omega, fun _ => rfl⟩
    rw [Loop.loop, pageFreeAboveTurn, if_neg (by omega)]
  | succ n ih =>
    have hword : u32 (x.newPageLimit + 0x1000) = x.newPageLimit + 0x1000 := u32_of_lt (by omega)
    obtain ⟨x', hloop, hcounter, _⟩ := @ih ⟨u32 (x.newPageLimit + 0x1000),
      (pageUnmap x.newPageLimit x.pages).2, x.freed ++ [(pageUnmap x.newPageLimit x.pages).1]⟩
      (by dsimp only; omega) (fuel - 1) (by omega)
    refine ⟨x', ?_, hcounter, fun hzero => absurd hzero (Nat.succ_ne_zero n)⟩
    rw [show fuel - 1 + 1 = fuel by omega] at hloop
    rw [Loop.loop, pageFreeAboveTurn, if_pos (by omega)]
    exact hloop

section

variable {s : PageState} {L U fuel : Nat} (hbase : kernelBase ≤ L) (hLU : L ≤ U) (hU : U < kernelLimit)
  (hpresent : ∀ a, kernelBase ≤ a → a < kernelLimit → (s.Present a ↔ a / 4096 ≤ U / 4096))
  (hfuel : 0x20000 ≤ fuel)
include hbase hLU hU hpresent hfuel

/-- **Shrinking.** Where exactly the pages from `KERNEL_BASE` to `U` are present, `page_free_above(L)`
returns. It leaves the pages up to `L`, frees the frames of the others once each and returns the end of
`L`'s page if and only if `L` lies on the page of `U` and the word that is read for the page behind it is
0, so that there is nothing to free. -/
theorem page_free_above_iff : ∃ x, pageFreeAbove fuel L s = some x
    ∧ (Shrinks s L U x ↔ L / 4096 = U / 4096 ∧ NextZero s U) := by
  have hends : kernelLimit = 0xDFFF0000 ∧ kernelBase = 0xC0000000 := ⟨rfl, rfl⟩
  have hpage : pageBase L = L / 4096 * 4096 := pageBase_eq (by omega)
  have hstart : u32 (L / 4096 * 4096 + 0x1000) = L / 4096 * 4096 + 0x1000 := u32_of_lt (by omega)
  obtain ⟨k, hupper, hpages, hzero⟩ := @pageUpper_ge s U (Nat.le_trans hbase hLU) hU
    fun a ha hlt hle => PageState.tableEntry_ne_zero ((hpresent a ha hlt).mpr hle)
  have hlimit := hpages.le_limit
  -- the counter goes on from the page of `L` to the one behind the last
  obtain ⟨x, hloop, hcounter, hnone⟩ := @freeAbove_counter (pageUpper s) (U / 4096 - L / 4096 + k) fuel
    ⟨L / 4096 * 4096 + 0x1000, s, []⟩ (by omega) (by dsimp only; omega) (by omega)
  have hcall : pageFreeAbove fuel L s = some x := by
    unfold pageFreeAbove
    rw [hpage, hstart]
    exact hloop
  refine ⟨x, hcall, ?_⟩
  constructor
  · intro hshrinks
    have hreturned := hshrinks.limit
    rw [hcounter, hupper, hpage] at hreturned
    have hsame : L / 4096 = U / 4096 := by omega
    exact ⟨hsame, hzero.mp (by omega)⟩
  · rintro ⟨hsame, hnext⟩
    have hk := hzero.mpr hnext
    rw [hnone (by omega)]
    refine ⟨?_, ?_, rfl, ?_⟩
    · intro a ha hlt
      rw [hsame]
      exact hpresent a ha hlt
    · rw [hsame, Nat.sub_self]
      rfl
    · exact hpage.symm ▸ rfl

end

/-- Nothing is to be freed. -/
theorem page_free_above_nothing : ∃ x, pageFreeAbove 0x20000 0xC0000000 (kernelPages 1) = some x
    ∧ Shrinks (kernelPages 1) 0xC0000000 0xC0000000 x := by
  have hpresent : ∀ a, kernelBase ≤ a → a < kernelLimit →
      ((kernelPages 1).Present a ↔ a / 4096 ≤ 0xC0000000 / 4096) := by
    intro a hbase hlt
    rw [kernelPages_present (by decide) hbase hlt]
    exact Nat.lt_succ_iff
  obtain ⟨x, hcall, hiff⟩ := @page_free_above_iff (kernelPages 1) 0xC0000000 0xC0000000 0x20000
    (by decide) (Nat.le_refl _) (by decide) hpresent (Nat.le_refl _)
  refine ⟨x, hcall, hiff.mpr ⟨rfl, fun hnext => ?_⟩⟩
  rw [kernelPages_tableEntry (by decide) (by decide) hnext]
  rfl

section

variable {s : PageState} {L U fuel : Nat} (hbase : kernelBase ≤ L) (hLU : L ≤ U) (hU : U < kernelLimit)
  (hpresent : ∀ a, kernelBase ≤ a → a < kernelLimit → (s.Present a ↔ a / 4096 ≤ U / 4096))
  (hfuel : 0x20000 ≤ fuel)
include hbase hLU hU hpresent hfuel

/-- The limit apart, it does what it should, where the tables are the kernel's own and the entries of
absent pages are 0. -/
theorem pageFreeAbove_shrinks (hs : KernelTables s)
    (habsent : ∀ a, kernelBase ≤ a → a < kernelLimit → ¬ s.Present a → s.tableEntry a = 0) :
    ∃ x, pageFreeAbove fuel L s = some x ∧ x.newPageLimit = U / 4096 * 4096 + 0x1000
      ∧ Shrinks s L U { x with newPageLimit := pageBase L + 0x1000 } := by
  have hends : kernelLimit = 0xDFFF0000 ∧ kernelBase = 0xC0000000 := ⟨rfl, rfl⟩
  have hpage : pageBase L = L / 4096 * 4096 := pageBase_eq (by omega)
  have hstart : u32 (L / 4096 * 4096 + 0x1000) = L / 4096 * 4096 + 0x1000 := u32_of_lt (by omega)
  have hzero : ∀ a, kernelBase ≤ a → a < kernelLimit → U / 4096 < a / 4096 → s.tableEntry a = 0 := by
    intro a ha hlt hbehind
    exact habsent a ha hlt fun hin => absurd ((hpresent a ha hlt).mp hin) (by omega)
  have hupper : pageUpper s = U / 4096 * 4096 := by
    refine pageUpper_eq (Nat.le_trans hbase hLU) hU fun a ha hlt => ?_
    rw [← hpresent a ha hlt]
    refine ⟨fun hne => ?_, PageState.tableEntry_ne_zero⟩
    by_contra hnot
    exact hne (habsent a ha hlt hnot)
  have hkernel : KernelPages (L / 4096 * 4096 + 0x1000) (U / 4096 - L / 4096) := by
    have hlow : kernelBase ≤ L / 4096 * 4096 + 0x1000 := by omega
    have hhigh : L / 4096 * 4096 + 0x1000 + 0x1000 * (U / 4096 - L / 4096) ≤ kernelLimit := by omega
    have halign : (L / 4096 * 4096 + 0x1000) % 4096 = 0 := by omega
    exact ⟨hlow, hhigh, halign⟩
  obtain ⟨s', hloop, hwrites, hframes⟩ := @unmapPages_spec s _ _ fuel (U / 4096 * 4096) hs hkernel
    (by omega) (by omega) []
  rw [List.nil_append] at hloop
  have hlength : (List.replicate (U / 4096 - L / 4096) 0).length = U / 4096 - L / 4096 := List.length_replicate
  have hleft : ∀ a, kernelBase ≤ a → a < kernelLimit → (s'.Present a ↔ a / 4096 ≤ L / 4096) := by
    intro a ha hlt
    have hslot := kernelSlot_of ha hlt
    rw [(hwrites.kernelTables hs).1.present_iff hslot,
      hwrites.tableEntry_behind hs (by rw [hlength]; exact hkernel) ha hlt]
    by_cases hbehind : L / 4096 < a / 4096
    · -- cleared, or absent before
      have hentry : ((List.replicate (U / 4096 - L / 4096) 0)[a / 4096 - L / 4096 - 1]?).getD
          (s.tableEntry a) = 0 := by
        rw [List.getElem?_replicate]
        split
        · rfl
        · rw [Option.getD_none]
          exact hzero a ha hlt (by omega)
      rw [if_pos hbehind, hentry]
      exact iff_of_false (by decide) (by omega)
    · rw [if_neg hbehind, ← hs.present_iff hslot, hpresent a ha hlt]
      omega
  refine ⟨⟨U / 4096 * 4096 + 0x1000, s', pageFrames s (L / 4096 * 4096 + 0x1000) (U / 4096 - L / 4096)⟩,
    ?_, rfl, ⟨hleft, rfl, hframes, rfl⟩⟩
  unfold pageFreeAbove
  rw [hpage, hstart, hupper]
  exact hloop

end

/-- The second of two pages is freed, and the limit that is returned is the old one. -/
theorem page_free_above_old_limit : KernelTables (kernelPages 2)
    ∧ (∀ a, kernelBase ≤ a → a < kernelLimit → ((kernelPages 2).Present a ↔ a / 4096 ≤ 0xC0001000 / 4096))
    ∧ ∃ x, pageFreeAbove 0x20000 0xC0000000 (kernelPages 2) = some x ∧ x.newPageLimit = 0xC0002000
      ∧ ¬ Shrinks (kernelPages 2) 0xC0000000 0xC0001000 x := by
  have hpresent : ∀ a, kernelBase ≤ a → a < kernelLimit →
      ((kernelPages 2).Present a ↔ a / 4096 ≤ 0xC0001000 / 4096) := by
    intro a hbase hlt
    rw [kernelPages_present (by decide) hbase hlt]
    exact Nat.lt_succ_iff
  obtain ⟨x, hcall, hlimit, _⟩ := @pageFreeAbove_shrinks (kernelPages 2) 0xC0000000 0xC0001000 0x20000
    (by decide) (by decide) (by decide) hpresent (Nat.le_refl _) (kernelPages_tables 2)
    (fun a => kernelPages_absent (by decide))
  refine ⟨kernelPages_tables 2, hpresent, x, hcall, hlimit, fun hshrinks => ?_⟩
  have hreturned := hlimit.symm.trans hshrinks.limit
  revert hreturned
  decide

end DiyOS
