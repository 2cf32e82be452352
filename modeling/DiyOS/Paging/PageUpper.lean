import DiyOS.Heap.Mm
import DiyOS.Lib.Loop
import DiyOS.Paging.PageMap
import Mathlib.Data.Nat.Find

/-!
# The last page of the kernel (`page_upper`, `page_map_until`)

`page_upper` goes from page to page until it finds an entry that is 0. It never looks at the present bit
of the directory entry: where that is 0, the table it reads is whatever stands at physical address 0.

* **`RunEnd`** — where the run of present pages from `KERNEL_BASE` ends.
* **`pageUpperLoop_spec`** — where the loop ends.
* **`pageMapUntil_present`** — what `page_map_until` maps from there on.
* **`pageMapUntil_returns`** — it returns if there are frames enough.
* **`pageUpper_correct_iff`** — all of this is right exactly if the word that is read for the first
  absent page is 0.
-/

namespace DiyOS

open Word PageTable

def kernelLimit : Nat := 0xDFFF0000

/-- `table[p_idx]` for `v_addr`. -/
def PageState.tableEntry (s : PageState) (vAddr : Nat) : Nat :=
  entry s.mem (s.table (vAddr >>> 22)) ((vAddr >>> 12) &&& 0x3FF)

/-- The loop of `page_upper`. -/
def pageUpperLoop (s : PageState) (vAddr : Nat) : Nat :=
  if vAddr < kernelLimit then
    if s.tableEntry vAddr = 0 then sub32 vAddr 0x1000 else pageUpperLoop s (u32 (vAddr + 0x1000))
  else sub32 vAddr 0x1000
termination_by kernelLimit - vAddr
decreasing_by
  unfold u32 kernelLimit at *
  omega

def pageUpper (s : PageState) : Nat := pageUpperLoop s kernelBase

/-- One turn of the loop of `page_map_until`: `old_limit` for the next turn, or the limit that is
returned. -/
def pageMapUntilTurn (newLimit : Nat) (p : Nat × PageState) :
    Option ((Nat × PageState) ⊕ (Nat × PageState)) :=
  let (oldLimit, s) := p
  if oldLimit ≤ newLimit then
    match s.frameGet with
    | none => none
    | some (pAddr, s) =>
      if pAddr = 0 then some (.inr (oldLimit, s))
      else
        match pageMap pAddr oldLimit s with
        | none => none
        | some s => some (.inl (u32 (oldLimit + 0x1000), s))
  else some (.inr (u32 (newLimit + 0x1000), s))

def pageMapUntil (fuel newLimit : Nat) (s : PageState) : Option (Nat × PageState) :=
  Loop.loop (pageMapUntilTurn (pageBase newLimit)) fuel (u32 (pageUpper s + 0x1000), s)

/-! ## Present pages -/

namespace PageState

def Present (s : PageState) (v : Nat) : Prop := (s.walk v).isSome

variable {s : PageState} {a v : Nat}

/-- The address matters by its page alone. -/
theorem present_of_page (hpage : a / 4096 = v / 4096) (h : s.Present v) : s.Present a := by
  rcases same_page_iff.mp hpage with ⟨hslot, htable⟩
  unfold Present PageState.walk PageTable.walk at *
  rw [hslot, htable]
  exact h

theorem tableEntry_eq (s : PageState) (v : Nat) :
    s.tableEntry v = entry s.mem (s.table (directorySlot v)) (tableSlot v) := by
  unfold tableEntry
  rw [shiftRight_slot, shiftRight_and_slot]

theorem tableEntry_of_page (hpage : a / 4096 = v / 4096) : s.tableEntry a = s.tableEntry v := by
  rcases same_page_iff.mp hpage with ⟨hslot, htable⟩
  rw [tableEntry_eq, tableEntry_eq, hslot, htable]

/-- For a present page, `page_upper` reads the entry that makes it so. -/
theorem present_iff : s.Present v
    ↔ present (s.directoryEntry (directorySlot v)) = true ∧ present (s.tableEntry v) = true := by
  rw [Present, PageState.walk, walk_isSome, Bool.and_eq_true, tableEntry_eq]
  rfl

theorem tableEntry_ne_zero (h : s.Present v) : s.tableEntry v ≠ 0 :=
  ne_zero_of_present (present_iff.mp h).2

end PageState

/-- The pages from `KERNEL_BASE` up to `e` are present, and the page at `e` is not, unless the kernel's
part of the memory ends there. -/
structure RunEnd (s : PageState) (e : Nat) : Prop where
  base_le : kernelBase ≤ e
  le_limit : e ≤ kernelLimit
  aligned : e % 4096 = 0
  present : ∀ v, kernelBase ≤ v → v < e → s.Present v
  absent : e < kernelLimit → ¬ s.Present e

/-- `page_upper` returns the last page of the run. -/
def UpperCorrect (s : PageState) : Prop := ∃ e, RunEnd s e ∧ pageUpper s = e - 0x1000

/-- For the first page that is not present, `page_upper` reads a 0. -/
def FirstAbsentZero (s : PageState) : Prop :=
  ∀ w, kernelBase ≤ w → w < kernelLimit → (∀ v, kernelBase ≤ v → v < w → s.Present v) →
    ¬ s.Present w → s.tableEntry w = 0

/-! ## `page_upper` -/

section

variable {s s' : PageState}

/-- Where the loop of `page_upper` ends. -/
theorem pageUpperLoop_spec {v : Nat} (hbase : kernelBase ≤ v) (hle : v ≤ kernelLimit)
    (halign : v % 4096 = 0) : ∃ e, pageUpperLoop s v = e - 0x1000 ∧ v ≤ e ∧ e ≤ kernelLimit
      ∧ e % 4096 = 0 ∧ (∀ a, v ≤ a → a < e → s.tableEntry a ≠ 0)
      ∧ (e < kernelLimit → s.tableEntry e = 0) := by
  have hends : kernelLimit = 0xDFFF0000 ∧ kernelBase = 0xC0000000 := ⟨rfl, rfl⟩
  have hback : ∀ w, kernelBase ≤ w → w ≤ kernelLimit → sub32 w 0x1000 = w - 0x1000 := fun w _ _ =>
    sub32_of_le (by omega) (by omega)
  fun_induction pageUpperLoop s v with
  | case1 v hlt hzero =>
    exact ⟨v, hback v hbase hle, le_refl v, hle, halign, fun _ _ _ => by omega, fun _ => hzero⟩
  | case2 v hlt hne ih =>
    have hnext : u32 (v + 0x1000) = v + 0x1000 := u32_of_lt (by omega)
    rw [hnext] at ih ⊢
    rcases ih (by omega) (by omega) (by omega) with ⟨e, heq, hge, hlimit, haligned, hbetween, hend⟩
    refine ⟨e, heq, by omega, hlimit, haligned, ?_, hend⟩
    intro a hva hae
    rcases Nat.lt_or_ge a (v + 0x1000) with hpage | hlater
    · rw [PageState.tableEntry_of_page (show a / 4096 = v / 4096 by omega)]
      exact hne
    · exact hbetween a hlater hae
  | case3 v hge =>
    exact ⟨v, hback v hbase hle, le_refl v, hle, halign, fun _ _ _ => by omega, fun _ => by omega⟩

/-- The first absent page, where there is an absent one. -/
theorem exists_first_absent {e : Nat} (hnot : ¬ ∀ v, kernelBase ≤ v → v < e → s.Present v) :
    ∃ w, kernelBase ≤ w ∧ w < e ∧ (∀ v, kernelBase ≤ v → v < w → s.Present v) ∧ ¬ s.Present w := by
  classical
  have hex : ∃ w, kernelBase ≤ w ∧ w < e ∧ ¬ s.Present w := by
    push Not at hnot
    exact hnot
  rcases Nat.find_spec hex with ⟨hbase, hlt, habsent⟩
  refine ⟨Nat.find hex, hbase, hlt, ?_, habsent⟩
  intro v hv hlow
  by_contra hnone
  exact Nat.find_min hex hlow ⟨hv, by omega, hnone⟩

/-- **`page_upper`** is right if and only if it reads a 0 for the first absent page. -/
theorem upperCorrect_iff : UpperCorrect s ↔ FirstAbsentZero s := by
  have hends : kernelLimit = 0xDFFF0000 ∧ kernelBase = 0xC0000000 := ⟨rfl, rfl⟩
  rcases @pageUpperLoop_spec s kernelBase (le_refl _) (by decide) (by decide) with
    ⟨e, heq, hge, hlimit, halign, hbetween, hend⟩
  constructor
  · rintro ⟨e', hrun, heq'⟩ w hbase hw hbefore habsent
    -- the loop has ended where the run does, which is the first absent page
    have hsame : e' = e := by
      have hupper : e' - 0x1000 = e - 0x1000 := heq'.symm.trans heq
      have := hrun.base_le
      omega
    subst hsame
    have hle : e' ≤ w := by
      by_contra hlt
      exact habsent (hrun.present w hbase (by omega))
    rcases Nat.lt_or_ge e' w with hlt | hge'
    · exact absurd (hbefore e' hrun.base_le hlt) (hrun.absent (by omega))
    · rw [show w = e' by omega]
      exact hend (by omega)
  · intro hzero
    refine ⟨e, ⟨hge, hlimit, halign, ?_, ?_⟩, heq⟩
    · by_contra hnot
      rcases exists_first_absent hnot with ⟨w, hbase, hw, hbefore, habsent⟩
      exact hbetween w hbase hw (hzero w hbase (by omega) hbefore habsent)
    · exact fun hlt hpresent => PageState.tableEntry_ne_zero hpresent (hend hlt)

/-! ## `page_map_until` -/

/-- A page that is present stays so, and the page that was mapped is. -/
theorem PageMapped.present (h : PagingOk s) {pAddr v t d : Nat} (hv : v < 4294967296)
    (hgets : GetsTable s v t) (hmap : PageMapped s s' pAddr v t d) :
    (∀ a, a / 4096 = v / 4096 → s'.Present a) ∧ ∀ a < 4294967296, s.Present a → s'.Present a := by
  have hpd : s'.pd = s.pd := congrArg pageBase hmap.cr3_eq
  have hself : ∀ a, a / 4096 = v / 4096 → s'.Present a := by
    intro a hpage
    apply PageState.present_of_page hpage
    rw [PageState.Present, PageState.walk, hpd, hmap.maps.walk_self hmap.table_eq, translateEntry_isSome,
      hmap.present_d, present_mapped]
    rfl
  refine ⟨hself, ?_⟩
  intro a ha hpresent
  by_cases hslot : directorySlot a = directorySlot v
  · by_cases htable : tableSlot a = tableSlot v
    · exact hself a (same_page_iff.mpr ⟨hslot, htable⟩)
    · rw [PageState.Present, walk_before h hv hgets hslot, translateEntry_isSome,
        Bool.and_eq_true] at hpresent
      rw [PageState.Present, PageState.walk, hpd, hmap.maps.walk_region hmap.table_eq hslot htable,
        translateEntry_isSome, hmap.present_d, hpresent.2]
      rfl
  · rw [PageState.Present, hmap.walk_other h hv hgets ha hslot]
    exact hpresent

/-- `frame_get` keeps the invariant. -/
theorem PagingOk.frameGet (h : PagingOk s) {addr : Nat} (hget : s.frameGet = some (addr, s'))
    (hne : addr ≠ 0) : PagingOk s' ∧ addr < 4294967296 ∧ s'.got = addr :: s.got
      ∧ ∀ a, s'.walk a = s.walk a := by
  unfold PageState.frameGet at hget
  cases hframe : DiyOS.frameGet 2 s.frames with
  | none =>
    rw [hframe] at hget
    cases hget
  | some r =>
    rw [hframe] at hget
    rcases Prod.mk.inj (Option.some.inj hget) with ⟨rfl, rfl⟩
    rcases frameGet_fresh h.count_le hframe hne with ⟨_, hlt, _, hbitmap, hcount⟩
    have htaken : ∀ g, s.frames.physicalBitmap g ≠ 0 → r.2.physicalBitmap g ≠ 0 := fun g hg =>
      bitmap_of_get hbitmap g (Or.inl hg)
    refine ⟨⟨h.cr3_lt, h.table_of_present, h.distinct, h.apart, htaken _ h.taken_pd, ?_, ?_⟩, hlt, rfl,
      fun _ => rfl⟩
    · exact fun i hi htable => htaken _ (h.taken_table i hi htable)
    · exact hcount ▸ h.count_le

/-- What one turn of the loop of `page_map_until` does. -/
theorem pageMapUntilTurn_cases {newLimit oldLimit : Nat} {next : (Nat × PageState) ⊕ (Nat × PageState)}
    (h : pageMapUntilTurn newLimit (oldLimit, s) = some next) :
    oldLimit ≤ newLimit ∧ (∃ s₁, s.frameGet = some (0, s₁) ∧ next = .inr (oldLimit, s₁))
      ∨ oldLimit ≤ newLimit ∧ (∃ pAddr s₁ s₂, s.frameGet = some (pAddr, s₁) ∧ pAddr ≠ 0
          ∧ pageMap pAddr oldLimit s₁ = some s₂ ∧ next = .inl (u32 (oldLimit + 0x1000), s₂))
      ∨ newLimit < oldLimit ∧ next = .inr (u32 (newLimit + 0x1000), s) := by
  unfold pageMapUntilTurn at h
  dsimp only at h
  by_cases hle : oldLimit ≤ newLimit
  · rw [if_pos hle] at h
    cases hget : s.frameGet with
    | none =>
      rw [hget] at h
      cases h
    | some r =>
      rcases r with ⟨pAddr, s₁⟩
      rw [hget] at h
      dsimp only at h
      by_cases hzero : pAddr = 0
      · rw [if_pos hzero] at h
        subst hzero
        exact Or.inl ⟨hle, s₁, rfl, (Option.some.inj h).symm⟩
      · rw [if_neg hzero] at h
        rcases hmap : pageMap pAddr oldLimit s₁ with _ | s₂
        · rw [hmap] at h
          cases h
        · rw [hmap] at h
          exact Or.inr (Or.inl ⟨hle, pAddr, s₁, s₂, rfl, hzero, hmap, (Option.some.inj h).symm⟩)
  · rw [if_neg hle] at h
    exact Or.inr (Or.inr ⟨Nat.lt_of_not_le hle, (Option.some.inj h).symm⟩)

/-- The log of `frame_get` grows. -/
theorem got_of_frameGet {addr : Nat} (h : s.frameGet = some (addr, s')) : s'.got = addr :: s.got := by
  unfold PageState.frameGet at h
  cases hframe : DiyOS.frameGet 2 s.frames with
  | none =>
    rw [hframe] at h
    cases h
  | some r =>
    rw [hframe] at h
    rcases Prod.mk.inj (Option.some.inj h) with ⟨rfl, rfl⟩
    rfl

/-- The pages before `limit` that are to be mapped are, and what was present still is. -/
structure MappedTo (s₀ s : PageState) (start limit : Nat) : Prop where
  ok : PagingOk s
  aligned : limit % 4096 = 0
  below : limit < 4294967296
  kept : ∀ a < 4294967296, s₀.Present a → s.Present a
  present : ∀ a, start ≤ a → a < limit → s.Present a

theorem got_of_pageMap {pAddr v : Nat} (h : pageMap pAddr v s = some s') : ∀ x ∈ s.got, x ∈ s'.got := by
  unfold pageMap at h
  dsimp only at h
  split at h
  · unfold newTable at h
    cases hget : s.frameGet with
    | none =>
      rw [hget] at h
      cases h
    | some r =>
      rw [hget] at h
      have hgot := got_of_frameGet (show s.frameGet = some (r.1, r.2) from hget)
      rw [← Option.some.inj h]
      intro x hx
      show x ∈ r.2.got
      rw [hgot]
      exact List.mem_cons_of_mem _ hx
  · rw [← Option.some.inj h]
    exact fun x hx => hx

/-- One turn: the page at the limit is mapped, if `frame_get` has not returned 0. -/
theorem MappedTo.turn {s₀ s₁ s₂ : PageState} {start limit pAddr : Nat} (h : MappedTo s₀ s start limit)
    (hlimit : limit + 0x1000 < 4294967296) (hget : s.frameGet = some (pAddr, s₁)) (hne : pAddr ≠ 0)
    (hcall : pageMap pAddr limit s₁ = some s₂) (hgot : 0 ∉ s₂.got) :
    MappedTo s₀ s₂ start (limit + 0x1000) := by
  rcases h.ok.frameGet hget hne with ⟨hok, hpAddr, _, hwalk⟩
  rcases getsTable_of_pageMap hcall hgot with ⟨t, hgets⟩
  rcases hok.pageMap hpAddr h.below hgets with ⟨s₂', d, hcall', hmap⟩
  obtain rfl := Option.some.inj (hcall'.symm.trans hcall)
  rcases hmap.present hok h.below hgets with ⟨hself, hkept⟩
  have hsame : ∀ a, s.Present a → s₁.Present a := by
    intro a ha
    rw [PageState.Present, hwalk]
    exact ha
  have halign := h.aligned
  refine ⟨hmap.ok hok h.below hgets, by omega, hlimit, ?_, ?_⟩
  · exact fun a ha hpresent => hkept a ha (hsame a (h.kept a ha hpresent))
  · intro a hlo hhi
    rcases Nat.lt_or_ge a limit with hlt | hge
    · exact hkept a (by omega) (hsame a (h.present a hlo hlt))
    · exact hself a (by omega)

/-- **`page_map_until`** maps every page from `start` to the new limit, or `frame_get` has returned 0. -/
theorem pageMapUntil_present {fuel start newLimit r : Nat} (h : PagingOk s) (hstart : start % 4096 = 0)
    (hbelow : start < 4294967296) (hnew : newLimit % 4096 = 0) (hlimit : newLimit < kernelLimit)
    (hcall : Loop.loop (pageMapUntilTurn newLimit) fuel (start, s) = some (r, s')) (hgot : 0 ∉ s'.got) :
    (∀ a < 4294967296, s.Present a → s'.Present a)
      ∧ ∀ a, start ≤ a → a < newLimit + 0x1000 → s'.Present a := by
  have hend : kernelLimit = 0xDFFF0000 := rfl
  let I : Nat × PageState → Prop := fun p => 0 ∈ p.2.got ∨ MappedTo s p.2 start p.1
  let Q : Nat × PageState → Prop := fun p => 0 ∈ p.2.got ∨ ((∀ a < 4294967296, s.Present a → p.2.Present a)
    ∧ ∀ a, start ≤ a → a < newLimit + 0x1000 → p.2.Present a)
  have hfinal : Q (r, s') := by
    refine Loop.loop_invariant (I := I) ?_ ?_ ?_ hcall
    · rintro ⟨limit, s₁⟩ next hI hturn
      rcases pageMapUntilTurn_cases hturn with ⟨_, _, _, hnext⟩ | ⟨hle, pAddr, s₂, s₃, hget, hne, hmap, hnext⟩ |
        ⟨_, hnext⟩
      · cases hnext
      · rw [Sum.inl.inj hnext]
        by_cases hzero : 0 ∈ s₃.got
        · exact Or.inl hzero
        · have hbefore : 0 ∉ s₁.got := by
            intro hmem
            apply hzero
            apply got_of_pageMap hmap
            rw [got_of_frameGet hget]
            exact List.mem_cons_of_mem _ hmem
          have hmapped := (hI.resolve_left hbefore).turn (by omega) hget hne hmap hzero
          right
          show MappedTo s s₃ start (u32 (limit + 0x1000))
          rw [u32_of_lt (by omega)]
          exact hmapped
      · cases hnext
    · rintro ⟨limit, s₁⟩ result hI hturn
      rcases pageMapUntilTurn_cases hturn with ⟨_, s₂, hget, hnext⟩ | ⟨_, _, _, _, _, _, _, hnext⟩ | ⟨hlt, hnext⟩
      · -- `frame_get` has returned 0
        rw [Sum.inr.inj hnext]
        left
        rw [got_of_frameGet hget]
        exact List.mem_cons_self
      · cases hnext
      · rw [Sum.inr.inj hnext]
        rcases hI with hzero | hmapped
        · exact Or.inl hzero
        · have halign : limit % 4096 = 0 := hmapped.aligned
          exact Or.inr ⟨hmapped.kept, fun a hlo hhi => hmapped.present a hlo (by omega)⟩
    · exact Or.inr ⟨h, hstart, hbelow, fun _ _ ha => ha, fun a hlo hhi => by omega⟩
  exact hfinal.resolve_left hgot

/-! ## The end of `page_map_until` -/

/-- `frame_get` gives `n` frames, one after the other. -/
def Supplies : Nat → Frames → Prop
  | 0, _ => True
  | n + 1, f => ∃ addr f', frameGet 2 f = some (addr, f') ∧ addr ≠ 0 ∧ Supplies n f'

theorem Supplies.mono {n k : Nat} {f : Frames} (h : Supplies (n + k) f) : Supplies n f := by
  induction n generalizing f with
  | zero => trivial
  | succ n ih =>
    rw [Nat.add_right_comm] at h
    rcases h with ⟨addr, f', hget, hne, hrest⟩
    exact ⟨addr, f', hget, hne, ih hrest⟩

theorem Supplies.frameGet {n : Nat} (h : Supplies (n + 1) s.frames) (hgot : 0 ∉ s.got) :
    ∃ addr s', s.frameGet = some (addr, s') ∧ addr ≠ 0 ∧ Supplies n s'.frames ∧ 0 ∉ s'.got := by
  rcases h with ⟨addr, f, hget, hne, hrest⟩
  refine ⟨addr, { s with frames := f, got := addr :: s.got }, ?_, hne, hrest, ?_⟩
  · unfold PageState.frameGet
    rw [hget]
  · intro hzero
    rcases List.mem_cons.mp hzero with heq | hin
    · exact hne heq.symm
    · exact hgot hin

/-- `page_map` takes one frame at most. -/
theorem Supplies.pageMap {n : Nat} (h : Supplies (n + 1) s.frames) (hgot : 0 ∉ s.got) (pAddr v : Nat) :
    ∃ s', pageMap pAddr v s = some s' ∧ Supplies n s'.frames ∧ 0 ∉ s'.got := by
  unfold DiyOS.pageMap
  dsimp only
  split
  · rcases h.frameGet hgot with ⟨addr, s₁, hget, _, hrest, hgot₁⟩
    unfold newTable
    rw [hget]
    exact ⟨_, rfl, hrest, hgot₁⟩
  · exact ⟨_, rfl, h.mono, hgot⟩

/-- **`page_map_until` returns** if there are frames enough: two for each page at most. -/
theorem pageMapUntil_returns {fuel limit n : Nat} (hfuel : 0x20000 ≤ fuel) (hlimit : limit < kernelLimit)
    (hgot : 0 ∉ s.got) (hn : 0x40000 ≤ n) (hsupplies : Supplies n s.frames) :
    ∃ r s', pageMapUntil fuel limit s = some (r, s') ∧ 0 ∉ s'.got := by
  have hends : kernelLimit = 0xDFFF0000 ∧ kernelBase = 0xC0000000 := ⟨rfl, rfl⟩
  have hnew : pageBase limit = limit / 4096 * 4096 := pageBase_eq (by omega)
  rcases @pageUpperLoop_spec s kernelBase (le_refl _) (by decide) (by decide) with
    ⟨e, hupper, hge, hle, _⟩
  have hstart : u32 (pageUpper s + 0x1000) = e := by
    unfold pageUpper
    rw [hupper, u32_of_lt (by omega)]
    omega
  -- the pages that are left
  let μ : Nat × PageState → Nat := fun p => (limit / 4096 * 4096 + 0x1000 - p.1) / 0x1000
  let I : Nat × PageState → Prop := fun p => 0 ∉ p.2.got ∧ Supplies (2 * μ p) p.2.frames
  have hturn : ∀ p, I p → (∃ r, pageMapUntilTurn (limit / 4096 * 4096) p = some (.inr r) ∧ 0 ∉ r.2.got)
      ∨ ∃ p', pageMapUntilTurn (limit / 4096 * 4096) p = some (.inl p') ∧ I p' ∧ μ p' < μ p := by
    rintro ⟨old, t⟩ ⟨hgot, hleft⟩
    unfold pageMapUntilTurn
    dsimp only
    by_cases hdone : old ≤ limit / 4096 * 4096
    · right
      have hcount : μ (old, t) = μ (old + 0x1000, t) + 1 := by
        simp only [μ]
        omega
      rw [hcount, Nat.mul_add] at hleft
      rcases Supplies.frameGet (n := 2 * μ (old + 0x1000, t) + 1) hleft hgot
        with ⟨addr, t₁, hget, hne, hrest, hgot₁⟩
      rcases hrest.pageMap hgot₁ addr old with ⟨t₂, hmap, hrest₂, hgot₂⟩
      have hword : u32 (old + 0x1000) = old + 0x1000 := u32_of_lt (by omega)
      rw [if_pos hdone, hget]
      dsimp only
      rw [if_neg hne, hmap, hword]
      exact ⟨_, rfl, ⟨hgot₂, hrest₂⟩, by rw [hcount]; exact Nat.lt_succ_self _⟩
    · rw [if_neg hdone]
      exact Or.inl ⟨_, rfl, hgot⟩
  have hbound : μ (e, s) < 0x20000 := by
    simp only [μ]
    omega
  have hinit : I (e, s) := by
    refine ⟨hgot, ?_⟩
    rcases Nat.exists_eq_add_of_le (show 2 * μ (e, s) ≤ n by omega) with ⟨k, hk⟩
    rw [hk] at hsupplies
    exact hsupplies.mono
  rcases Loop.loop_returns hturn hinit (Nat.lt_of_lt_of_le hbound hfuel) with ⟨r, hcall, hr⟩
  unfold pageMapUntil
  rw [hstart, hnew]
  exact ⟨r.1, r.2, hcall, hr⟩

/-- **Growth of the heap.** For every directory, all tables and whatever stands in low memory:
`page_map_until` returns, if there are frames enough; and `page_upper` returns the last page of the run of
present pages, and after `page_map_until(L)`, if `frame_get` has not returned 0, every page from
`KERNEL_BASE` to `L` is present, if and only if a 0 is read for the first page that is not present. -/
theorem pageUpper_correct_iff (h : PagingOk s) :
    (∀ fuel ≥ 0x20000, ∀ limit < kernelLimit, 0 ∉ s.got → Supplies 0x40000 s.frames →
        ∃ r s', pageMapUntil fuel limit s = some (r, s') ∧ 0 ∉ s'.got)
      ∧ ((UpperCorrect s ∧ ∀ fuel limit r s', limit < kernelLimit →
          pageMapUntil fuel limit s = some (r, s') → 0 ∉ s'.got →
            ∀ a, kernelBase ≤ a → a ≤ limit → s'.Present a)
        ↔ FirstAbsentZero s) := by
  have hends : kernelLimit = 0xDFFF0000 ∧ kernelBase = 0xC0000000 := ⟨rfl, rfl⟩
  refine ⟨fun fuel hfuel limit hlimit hgot hsupplies =>
    pageMapUntil_returns hfuel hlimit hgot (Nat.le_refl _) hsupplies, ?_⟩
  rw [← upperCorrect_iff]
  refine ⟨fun hboth => hboth.1, fun hupper => ⟨hupper, ?_⟩⟩
  intro fuel limit r s' hlimit hcall hgot a hbase hle
  rcases hupper with ⟨e, hrun, heq⟩
  have hge := hrun.base_le
  have hend := hrun.le_limit
  have hstart : u32 (pageUpper s + 0x1000) = e := by
    rw [heq, u32_of_lt (by omega)]
    omega
  have hnew : pageBase limit = limit / 4096 * 4096 := pageBase_eq (by omega)
  unfold pageMapUntil at hcall
  rw [hstart, hnew] at hcall
  rcases pageMapUntil_present h hrun.aligned (by omega) (by omega) (by omega) hcall hgot with ⟨hkept, hnext⟩
  -- below the end the pages were there, behind it they are mapped now
  rcases Nat.lt_or_ge a e with hlt | hbeyond
  · exact hkept a (by omega) (hrun.present a hbase hlt)
  · exact hnext a hbeyond (by omega)

end

/-! ## The pages of `start.asm` -/

/-- The byte at `offset` of a table whose entries map frames from `first` on. -/
def tableByte (first offset : Nat) : UInt8 :=
  UInt8.ofNat ((first + offset / 4 * 4096) / 256 ^ (offset % 4))

/-- Memory as `start` leaves it, with `low` in every byte of the first page: the directory at `0x1000`,
the table of entry 768 at `0x2000` and that of entry 0 at `0x3000`. -/
def startMem (low : UInt8) : Mem := fun a =>
  if a < 0x1000 then low
  else if a < 0x2000 then ([(0x1000, 0x03), (0x1001, 0x30), (0x1C00, 0x03), (0x1C01, 0x20)].lookup a).getD 0
  else if a < 0x3000 then tableByte 0x100003 (a - 0x2000)
  else if a < 0x4000 then tableByte 0x3 (a - 0x3000)
  else 0

def startPages (low : UInt8) : PageState := ⟨startMem low, 0x1000, sixteenFrames, []⟩

section

variable (low : UInt8)

/-- A word is its four bytes. -/
theorem readWord_of_bytes {m : Mem} {a w : Nat} (hw : w < 4294967296)
    (h : ∀ k < 4, m (a + k) = UInt8.ofNat (w / 256 ^ k)) : m.readWord a = w := by
  have h0 := h 0 (by decide)
  have h1 := h 1 (by decide)
  have h2 := h 2 (by decide)
  have h3 := h 3 (by decide)
  rw [Nat.add_zero] at h0
  unfold Mem.readWord
  rw [h0, h1, h2, h3]
  simp only [UInt8.toNat_ofNat', Nat.reducePow]
  omega

theorem startPages_directory {i : Nat} (hi : i < 1024) : (startPages low).directoryEntry i
    = if i = 0 then 0x3003 else if i = 768 then 0x2003 else 0 := by
  show entry (startMem low) (pageBase 0x1000) i = _
  have hpd : pageBase 0x1000 = 0x1000 := by decide
  rw [entry_eq, hpd]
  have hbyte : ∀ k < 4, startMem low (0x1000 + 4 * i + k)
      = ([(0x1000, 0x03), (0x1001, 0x30), (0x1C00, 0x03), (0x1C01, 0x20)].lookup
        (0x1000 + 4 * i + k)).getD 0 := by
    intro k hk
    unfold startMem
    rw [if_neg (by omega), if_pos (by omega)]
  split
  · next h0 =>
    subst h0
    apply readWord_of_bytes (by decide)
    intro k hk
    rw [hbyte k hk]
    revert k
    decide
  · split
    · next _ h768 =>
      subst h768
      apply readWord_of_bytes (by decide)
      intro k hk
      rw [hbyte k hk]
      revert k
      decide
    · next h0 h768 =>
      apply readWord_of_bytes (by decide)
      intro k hk
      have hnone : ([(0x1000, 0x03), (0x1001, 0x30), (0x1C00, 0x03), (0x1C01, 0x20)] : List (Nat × UInt8)).lookup
          (0x1000 + 4 * i + k) = none := by
        simp [List.lookup_eq_none_iff]
        omega
      rw [hbyte k hk, hnone]
      simp

/-- The kernel's first 4 MB. -/
theorem startPages_table {j : Nat} (hj : j < 1024) :
    entry (startPages low).mem 0x2000 j = 0x100003 + j * 4096 := by
  show entry (startMem low) 0x2000 j = _
  rw [entry_eq]
  apply readWord_of_bytes (by omega)
  intro k hk
  have hoffset : 0x2000 + 4 * j + k - 0x2000 = 4 * j + k := by omega
  have hdiv : (4 * j + k) / 4 = j := by omega
  have hmod : (4 * j + k) % 4 = k := by omega
  unfold startMem
  rw [if_neg (by omega), if_neg (by omega), if_pos (by omega), hoffset, tableByte, hdiv, hmod]

theorem startPages_low {j : Nat} (hj : j < 1024) :
    entry (startPages low).mem 0 j = low.toNat * 16843009 := by
  show entry (startMem low) 0 j = _
  rw [entry_eq]
  unfold Mem.readWord startMem
  rw [if_pos (by omega), if_pos (by omega), if_pos (by omega), if_pos (by omega)]
  omega

theorem startPages_ok : PagingOk (startPages low) := by
  have htable : ∀ i < 1024, (startPages low).table i
      = if i = 0 then 0x3000 else if i = 768 then 0x2000 else 0 := by
    intro i hi
    rw [PageState.table, startPages_directory low hi]
    split
    · decide
    · split <;> decide
  have hpd : (startPages low).pd = 0x1000 := show pageBase 0x1000 = 0x1000 by decide
  constructor
  · show 0x1000 < 4294967296
    decide
  · intro i hi hpresent
    rw [startPages_directory low hi] at hpresent
    rw [htable i hi]
    split
    · decide
    · split
      · decide
      · simp_all [PageTable.present]
  · intro i hi j hj hij
    rw [htable i hi, htable j hj]
    grind
  · intro i hi
    rw [htable i hi, hpd]
    grind
  · show sixteenFrames.physicalBitmap (frameGroup (pageBase 0x1000)) ≠ 0
    decide
  · intro i hi
    rw [htable i hi]
    show _ → sixteenFrames.physicalBitmap _ ≠ 0
    split
    · decide
    · split <;> decide
  · show sixteenFrames.framesCount ≤ 1048576
    decide

/-- The kernel's addresses: the first 4 MB are present, and behind them low memory is read. -/
theorem startPages_entry {v : Nat} (hbase : kernelBase ≤ v) (hlt : v < kernelLimit) :
    (directorySlot v = 768 → (startPages low).Present v)
      ∧ (directorySlot v ≠ 768 → ¬ (startPages low).Present v
        ∧ (startPages low).tableEntry v = low.toNat * 16843009) := by
  have hends : kernelLimit = 0xDFFF0000 ∧ kernelBase = 0xC0000000 := ⟨rfl, rfl⟩
  have hrange : 768 ≤ directorySlot v ∧ directorySlot v < 1024 := by
    unfold directorySlot
    omega
  have hentry := startPages_directory low hrange.2
  rw [if_neg (by omega)] at hentry
  constructor
  · intro hslot
    rw [if_pos hslot] at hentry
    have htable : (startPages low).table (directorySlot v) = 0x2000 := by
      rw [PageState.table, hentry]
      decide
    rw [PageState.present_iff, PageState.tableEntry_eq, hentry, htable,
      startPages_table low (tableSlot_lt v)]
    refine ⟨by decide, ?_⟩
    unfold PageTable.present
    rw [Nat.testBit_zero, decide_eq_true_eq]
    omega
  · intro hslot
    rw [if_neg hslot] at hentry
    have htable : (startPages low).table (directorySlot v) = 0 := by
      rw [PageState.table, hentry]
      decide
    rw [PageState.present_iff, PageState.tableEntry_eq, hentry, htable,
      startPages_low low (tableSlot_lt v)]
    exact ⟨fun hpresent => absurd hpresent.1 (by decide), rfl⟩

end

/-- With zeros in low memory `page_upper` stops at the first page behind the 4 MB. -/
theorem pageUpper_correct_zero : UpperCorrect (startPages 0) := by
  apply ((pageUpper_correct_iff (startPages_ok 0)).2.mpr ?_).1
  intro w hbase hlt _ habsent
  rcases startPages_entry 0 hbase hlt with ⟨hfirst, hothers⟩
  have hslot : directorySlot w ≠ 768 := fun heq => habsent (hfirst heq)
  exact (hothers hslot).2

/-- With anything else there, for the kernel's last page; then `page_map_until` maps nothing. -/
theorem pageUpper_overshoots : pageUpper (startPages 0x53) = 0xDFFEF000
    ∧ ¬ (startPages 0x53).Present 0xC0400000
    ∧ pageMapUntil 1 0xC0400000 (startPages 0x53) = some (0xC0401000, startPages 0x53) := by
  have hends : kernelLimit = 0xDFFF0000 ∧ kernelBase = 0xC0000000 := ⟨rfl, rfl⟩
  -- through an absent entry of the directory, low memory is read for a table
  have hnever : ∀ v, kernelBase ≤ v → v < kernelLimit → (startPages 0x53).tableEntry v ≠ 0 := by
    intro v hbase hlt
    rcases startPages_entry 0x53 hbase hlt with ⟨hfirst, hothers⟩
    by_cases hslot : directorySlot v = 768
    · exact PageState.tableEntry_ne_zero (hfirst hslot)
    · rw [(hothers hslot).2]
      decide
  have hupper : pageUpper (startPages 0x53) = 0xDFFEF000 := by
    rcases @pageUpperLoop_spec (startPages 0x53) kernelBase (le_refl _) (by decide) (by decide) with
      ⟨e, heq, hge, hlimit, _, _, hend⟩
    have hlast : e = kernelLimit := by
      by_contra hne
      exact hnever e hge (by omega) (hend (by omega))
    rw [hlast] at heq
    exact heq
  refine ⟨hupper, ?_, ?_⟩
  · exact ((startPages_entry 0x53 (by decide) (by decide)).2 (by decide)).1
  · have hnew : pageBase 0xC0400000 = 0xC0400000 := by decide
    unfold pageMapUntil
    rw [hupper, hnew, Loop.loop]
    unfold pageMapUntilTurn
    rfl

end DiyOS
