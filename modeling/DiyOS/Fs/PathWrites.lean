import DiyOS.Fs.Path
import DiyOS.Heap.Integrity
import DiyOS.Lib.Journal

/-!
# The writes of `path` (`kernel/filesystem/path.c`)

`path` as it works in memory: it copies its argument to a block, cuts the copy, and stores the
segments' addresses and a NULL in a second block. Its own writes go to a journal; those of `malloc` do
not.

* **`pathIn_spec`** — the array holds the segments of the string, and the NULL behind them.
* **`path_writes_outside`** — the NULL stands behind the block, and the next `malloc` overwrites it.
-/

namespace DiyOS

open Word CString

variable {σ : Type}

/-- `strcpy`: the bytes of `source` and the NUL, from `dest` on. -/
def strcpy : Nat → CString → Journal → Journal
  | dest, [], j => j.byte dest 0
  | dest, b :: source, j => strcpy (dest + 1) source (j.byte dest b)

/-- `strdup`: the address of the copy, and the journal of its writes. -/
def strdup (pg : Paging σ) (fuel : Nat) (str : CString) (s : Heap σ) :
    Except Halt (Nat × Heap σ × List Extent) :=
  match malloc pg fuel (u32 (str.length + 1)) s with
  | .error e => .error e
  | .ok (newStr, s) =>
    if newStr = null then .ok (null, s, [])
    else
      let j := strcpy newStr str ⟨s.mem, []⟩
      .ok (newStr, { s with mem := j.mem }, j.writes)

/-- The first loop of `path`, from the byte at `a` on: the number of segments. -/
def cutLoop : Nat → Nat → Nat → Journal → Except Halt (Nat × Journal)
  | 0, _, _, _ => .error .loops
  | fuel + 1, a, segs, j =>
    if j.mem a = 0 then .ok (segs, j)
    else if j.mem a = slash then
      let j := j.byte a 0
      if j.mem (a + 1) = 0 then .ok (segs, j) else cutLoop fuel (a + 1) (segs + 1) j
    else cutLoop fuel (a + 1) segs j

/-- `while( str[i++] );` from the byte at `a` on: the address behind the NUL. -/
def skipString : Nat → Mem → Nat → Except Halt Nat
  | 0, _, _ => .error .loops
  | fuel + 1, m, a => if m a = 0 then .ok (a + 1) else skipString fuel m (a + 1)

/-- The second loop of `path`, for the `n` segments from the one at `a` on, whose addresses go to the
slots from `slot` on. -/
def storeLoop (fuel : Nat) : Nat → Nat → Nat → Journal → Except Halt Journal
  | 0, _, _, j => .ok j
  | n + 1, slot, a, j =>
    let j := j.word slot a
    match skipString fuel j.mem a with
    | .error e => .error e
    | .ok a => storeLoop fuel n (slot + 4) a j

/-- What a call of `path` leaves: the array, the number of its segments, the blocks it asked `malloc`
for, the heap and its own writes. -/
structure PathCall (σ : Type) where
  p : Nat
  segs : Nat
  copy : Block
  array : Block
  heap : Heap σ
  writes : List Extent

def pathIn (pg : Paging σ) (fuel : Nat) (file : CString) (s : Heap σ) :
    Except Halt (PathCall σ) :=
  let i0 := if file.head? = some slash then 1 else 0
  match strdup pg fuel file s with
  | .error e => .error e
  | .ok (copy, s, writes) =>
    let str := copy + i0
    match cutLoop fuel str 1 ⟨s.mem, writes⟩ with
    | .error e => .error e
    | .ok (segs, j) =>
      match malloc pg fuel (u32 (4 * segs)) { s with mem := j.mem } with
      | .error e => .error e
      | .ok (p, s) =>
        match storeLoop fuel segs p str ⟨s.mem, j.writes⟩ with
        | .error e => .error e
        | .ok j =>
          let j := j.word (p + 4 * segs) null
          .ok ⟨p, segs, ⟨copy, u32 (file.length + 1)⟩, ⟨p, u32 (4 * segs)⟩,
            { s with mem := j.mem }, j.writes⟩

/-! ## The loops -/

theorem strcpy_spec (source : CString) (dest : Nat) (j : Journal) :
    Journal.Extends ⟨dest, source.length + 1⟩ j (strcpy dest source j)
      ∧ (strcpy dest source j).mem.bytes dest (source.length + 1) = source ++ [0] := by
  induction source generalizing dest j with
  | nil =>
    refine ⟨j.extends_byte 0 ⟨Nat.le_refl _, Nat.le_refl _⟩, ?_⟩
    rw [strcpy, List.length_nil, Mem.bytes_succ]
    simp [Mem.bytes]
  | cons b source ih =>
    obtain ⟨hext, hbytes⟩ := ih (dest + 1) (j.byte dest b)
    have hfirst : Journal.Extends ⟨dest, source.length + 1 + 1⟩ j (j.byte dest b) :=
      j.extends_byte b ⟨Nat.le_refl _, by show dest + 1 ≤ dest + (source.length + 1 + 1); omega⟩
    have hrest : Journal.Extends ⟨dest, source.length + 1 + 1⟩ (j.byte dest b)
        (strcpy (dest + 1) source (j.byte dest b)) := by
      refine hext.mono ⟨Nat.le_succ _, ?_⟩
      show dest + 1 + (source.length + 1) ≤ dest + (source.length + 1 + 1)
      omega
    refine ⟨hfirst.trans hrest, ?_⟩
    have hb : (strcpy (dest + 1) source (j.byte dest b)).mem dest = b := by
      rw [hext.frame dest (Or.inl (Nat.lt_succ_self _)), Journal.byte_mem, Mem.writeByte_self]
    rw [strcpy, List.length_cons, Mem.bytes_succ, hbytes, hb, List.cons_append]

/-- The first loop does in memory what `cutSegments` does to the string. -/
theorem cutLoop_spec {t : CString} (hzero : 0 ∉ t) {fuel a : Nat} (segs : Nat) {j : Journal}
    (hfuel : t.length < fuel) (hbytes : j.mem.bytes a (t.length + 1) = t ++ [0]) :
    ∃ j', cutLoop fuel a segs j = .ok (segs + (cutSegments (t ++ [0])).2, j')
      ∧ Journal.Extends ⟨a, t.length⟩ j j'
      ∧ j'.mem.bytes a (t.length + 1) = (cutSegments (t ++ [0])).1 := by
  induction t generalizing fuel a segs j with
  | nil =>
    obtain ⟨fuel, rfl⟩ := Nat.exists_eq_succ_of_ne_zero (Nat.ne_of_gt hfuel)
    have hend : j.mem a = 0 := by
      rw [List.length_nil, Mem.bytes_succ] at hbytes
      exact (List.cons.inj hbytes).1
    refine ⟨j, ?_, Journal.Extends.refl _ _, hbytes⟩
    rw [cutLoop, if_pos hend]
    rfl
  | cons b t ih =>
    obtain ⟨fuel, rfl⟩ := Nat.exists_eq_succ_of_ne_zero (Nat.ne_of_gt (Nat.zero_lt_of_lt hfuel))
    have hb : b ≠ 0 := fun heq => hzero (heq ▸ List.mem_cons_self)
    have hzero' : 0 ∉ t := fun hin => hzero (List.mem_cons_of_mem _ hin)
    rw [List.length_cons, Mem.bytes_succ, List.cons_append] at hbytes
    obtain ⟨hfirst, hrest⟩ := List.cons.inj hbytes
    have hin : Extent.Inside ⟨a + 1, t.length⟩ ⟨a, t.length + 1⟩ :=
      ⟨Nat.le_succ _, by show a + 1 + t.length ≤ a + (t.length + 1); omega⟩
    rw [List.length_cons, List.cons_append, cutLoop, hfirst, if_neg hb, cutSegments, if_neg hb]
    by_cases hs : b = slash
    · subst hs
      have hcut : Journal.Extends ⟨a, t.length + 1⟩ j (j.byte a 0) :=
        j.extends_byte 0 ⟨Nat.le_refl _, by show a + 1 ≤ a + (t.length + 1); omega⟩
      have hkept : (j.byte a 0).mem.bytes (a + 1) (t.length + 1) = t ++ [0] := by
        rw [← hrest]
        exact (Mem.writeByte_agree j.mem 0 (Or.inl (Nat.lt_succ_self a))).bytes
      have hnext : ((j.byte a 0).mem (a + 1) = 0) ↔ (t ++ [0]).head? = some 0 := by
        rw [← hkept, Mem.bytes_succ, List.head?_cons, Option.some.injEq]
      rw [if_pos rfl, if_pos rfl]
      simp only [hnext]
      -- a `/` in front of the NUL is cut off, but counts for no segment
      by_cases hend : (t ++ [0]).head? = some 0
      · rw [if_pos hend, if_pos hend]
        refine ⟨_, rfl, hcut, ?_⟩
        rw [Mem.bytes_succ, hkept, Journal.byte_mem, Mem.writeByte_self]
      · rw [if_neg hend, if_neg hend]
        obtain ⟨j', hcall, hext, hbytes'⟩ := ih hzero' (segs + 1) (Nat.lt_of_succ_lt_succ hfuel) hkept
        refine ⟨j', ?_, hcut.trans (hext.mono hin), ?_⟩
        · rw [hcall]
          exact congrArg (fun n => Except.ok (n, j')) (by omega)
        · rw [Mem.bytes_succ, hbytes', hext.frame a (Or.inl (Nat.lt_succ_self _)), Journal.byte_mem,
            Mem.writeByte_self]
    · rw [if_neg hs, if_neg hs]
      obtain ⟨j', hcall, hext, hbytes'⟩ := ih hzero' segs (Nat.lt_of_succ_lt_succ hfuel) hrest
      refine ⟨j', hcall, hext.mono hin, ?_⟩
      rw [Mem.bytes_succ, hbytes', hext.frame a (Or.inl (Nat.lt_succ_self _)), hfirst]

theorem skipString_spec {s : CString} (hzero : 0 ∉ s) {fuel a : Nat} {m : Mem}
    (hfuel : s.length < fuel) (hbytes : m.bytes a (s.length + 1) = s ++ [0]) :
    skipString fuel m a = .ok (a + s.length + 1) := by
  induction s generalizing fuel a with
  | nil =>
    obtain ⟨fuel, rfl⟩ := Nat.exists_eq_succ_of_ne_zero (Nat.ne_of_gt hfuel)
    rw [List.length_nil, Mem.bytes_succ] at hbytes
    rw [skipString, if_pos (List.cons.inj hbytes).1]
    rfl
  | cons b s ih =>
    obtain ⟨fuel, rfl⟩ := Nat.exists_eq_succ_of_ne_zero (Nat.ne_of_gt (Nat.zero_lt_of_lt hfuel))
    rw [List.length_cons, Mem.bytes_succ, List.cons_append] at hbytes
    obtain ⟨hfirst, hrest⟩ := List.cons.inj hbytes
    have hb : m a ≠ 0 := by
      rw [hfirst]
      exact fun heq => hzero (heq ▸ List.mem_cons_self)
    rw [skipString, if_neg hb, ih (fun hin => hzero (List.mem_cons_of_mem _ hin))
      (Nat.lt_of_succ_lt_succ hfuel) hrest, List.length_cons]
    exact congrArg Except.ok (by omega)

/-- The slots from `slot` on hold the addresses of the strings `ss`. -/
def Slots (m : Mem) (slot : Nat) (ss : List CString) : Prop :=
  ∀ i, ∀ h : i < ss.length, ∃ n, m.cString (m.readWord (slot + 4 * i)) n = ss.get ⟨i, h⟩

/-- The second loop stores the addresses of strings that are laid out below the slots. -/
theorem storeLoop_spec {ss : List CString} (hzero : ∀ s ∈ ss, 0 ∉ s) {fuel slot a : Nat} {j : Journal}
    (hfuel : ∀ s ∈ ss, s.length < fuel)
    (hbytes : j.mem.bytes a (laidOut ss).length = laidOut ss)
    (hapart : a + (laidOut ss).length ≤ slot) (haddr : a + (laidOut ss).length < 4294967296) :
    ∃ j', storeLoop fuel ss.length slot a j = .ok j'
      ∧ Journal.Extends ⟨slot, 4 * ss.length⟩ j j'
      ∧ ∀ m', Mem.Agree j'.mem m' a (laidOut ss).length → Mem.Agree j'.mem m' slot (4 * ss.length) →
        Slots m' slot ss := by
  induction ss generalizing slot a j with
  | nil =>
    exact ⟨j, rfl, Journal.Extends.refl _ _, fun _ _ _ i h => absurd h (Nat.not_lt_zero i)⟩
  | cons s ss ih =>
    have hs := hzero s List.mem_cons_self
    have hlaid : laidOut (s :: ss) = s ++ [0] ++ laidOut ss := by simp [laidOut]
    have hlength : (laidOut (s :: ss)).length = s.length + 1 + (laidOut ss).length := by
      rw [hlaid, List.length_append, List.length_append]
      rfl
    rw [hlength] at hbytes hapart haddr
    -- the slot lies above the strings
    have hkept : (j.word slot a).mem.bytes a (s.length + 1 + (laidOut ss).length)
        = s ++ [0] ++ laidOut ss := by
      rw [← hlaid, ← hbytes]
      exact (Mem.writeWord_agree j.mem a (Or.inr (by omega))).bytes
    rw [Mem.bytes_add] at hkept
    obtain ⟨hfirst, hrest⟩ := List.append_inj hkept (by simp)
    obtain ⟨j', hcall, hext, hslots⟩ := @ih (fun t ht => hzero t (List.mem_cons_of_mem _ ht)) (slot + 4)
      (a + (s.length + 1)) (j.word slot a) (fun t ht => hfuel t (List.mem_cons_of_mem _ ht)) hrest
      (by omega) (by omega)
    have hskip := skipString_spec hs (hfuel s List.mem_cons_self) hfirst
    refine ⟨j', ?_, ?_, ?_⟩
    · rw [List.length_cons, storeLoop]
      simp only [hskip]
      exact hcall
    · have hword : Journal.Extends ⟨slot, 4 * (ss.length + 1)⟩ j (j.word slot a) :=
        j.extends_word a ⟨Nat.le_refl _, by show slot + 4 ≤ slot + 4 * (ss.length + 1); omega⟩
      refine hword.trans (hext.mono ⟨Nat.le_add_right _ _, ?_⟩)
      show slot + 4 + 4 * ss.length ≤ slot + 4 * (ss.length + 1)
      omega
    · intro m' hstr hslot i hi
      rw [hlength] at hstr
      rw [List.length_cons] at hslot
      cases i with
      | zero =>
        -- nothing is written to the first slot or to the first string any more
        have hword : m'.readWord slot = a := by
          have hlater : m'.readWord slot = j'.mem.readWord slot :=
            hslot.readWord (k := 0) (by omega)
          have hkeep : j'.mem.readWord slot = (j.word slot a).mem.readWord slot :=
            (hext.agree (n := 4) (Or.inl (Nat.le_refl _))).readWord (k := 0) (Nat.le_refl 4)
          rw [hlater, hkeep, Journal.word_mem, Mem.readWord_writeWord _ _ (by omega)]
        have hstring : m'.bytes a (s.length + 1) = s ++ [0] := by
          have hkeep : Mem.Agree (j.word slot a).mem j'.mem a (s.length + 1) :=
            hext.agree (Or.inl (by show a + (s.length + 1) ≤ slot + 4; omega))
          have hlater : Mem.Agree j'.mem m' a (s.length + 1) := hstr.sub (k := 0) (by omega)
          exact (hkeep.trans hlater).bytes.trans hfirst
        refine ⟨s.length + 1, ?_⟩
        rw [Nat.mul_zero, Nat.add_zero, hword]
        exact Mem.cString_eq hs (Nat.lt_succ_self _) hstring
      | succ i =>
        have htail := hslots m' (hstr.sub (Nat.le_refl _)) (hslot.sub (by omega)) i
          (Nat.lt_of_succ_lt_succ hi)
        rw [show slot + 4 * (i + 1) = slot + 4 + 4 * i by omega]
        exact htail

/-! ## The call -/

/-- The bytes of a block that its owner may write. -/
def Block.payload (b : Block) : Extent := ⟨b.addr, b.size⟩

variable {pg : Paging σ} {root : Block} {s : HeapState σ}

/-- Writes that meet no header keep the invariant. -/
theorem HeapInv.of_agree (h : HeapInv root s) {m' : Mem}
    (hag : ∀ b ∈ root :: s.given, Mem.Agree s.heap.mem m' b.header 20) :
    HeapInv root ⟨{ s.heap with mem := m' }, s.given⟩ :=
  ⟨h.linked.of_agree hag, h.tiles, h.last, h.addr_eq, h.root_pos, h.top_lt⟩

theorem HeapInv.write_payload (h : HeapInv root s) {b : Block} (hb : b ∈ s.given) {j : Journal}
    {ws : List Extent} (hext : Journal.Extends b.payload ⟨s.heap.mem, ws⟩ j) :
    HeapInv root ⟨{ s.heap with mem := j.mem }, s.given⟩ := by
  refine h.of_agree fun c hc k hk => hext.frame (c.header + k) ?_
  by_contra hin
  have hlo : b.addr ≤ c.header + k := Nat.le_of_not_lt fun hlt => hin (Or.inl hlt)
  have hhi : c.header + k < b.addr + b.size := Nat.lt_of_not_le fun hle => hin (Or.inr hle)
  have hout := h.payload_outside (List.mem_cons_of_mem _ hb) hc hlo hhi
  omega

theorem HeapInv.write_above (h : HeapInv root s) {m' : Mem}
    (hframe : ∀ a, a < s.heap.mallocTop → m' a = s.heap.mem a) :
    HeapInv root ⟨{ s.heap with mem := m' }, s.given⟩ := by
  refine h.of_agree fun c hc k hk => hframe _ ?_
  have hhi := (h.bounds hc).2
  omega

/-- A call of `malloc` in a heap that meets the invariant. -/
theorem HeapInv.malloc_returns_inv (h : HeapInv root s) {fuel size : Nat} (hpos : 0 < size)
    (hfuel : s.given.length + 1 < fuel) (hfit : s.heap.mallocTop + 20 + size < 4294967296)
    (hpages : ∀ limit p, ∃ r, pg.pageMapUntil limit p = some r) :
    ∃ h', malloc pg fuel size s.heap = .ok (s.heap.mallocTop + 20, h')
      ∧ Appended pg size s.heap h'
      ∧ HeapInv root ⟨h', s.given ++ [⟨s.heap.mallocTop + 20, size⟩]⟩ := by
  obtain ⟨h', hcall⟩ := malloc_returns h hpos hfuel hfit hpages
  have happ := (malloc_spec h hpos hfit hcall).2
  exact ⟨h', hcall, happ, h.appended hfit happ⟩

theorem strdup_spec (h : HeapInv root s) {file : CString} {fuel : Nat}
    (hfuel : s.given.length + 1 < fuel)
    (hfit : s.heap.mallocTop + 20 + (file.length + 1) < 4294967296)
    (hpages : ∀ limit p, ∃ r, pg.pageMapUntil limit p = some r) :
    ∃ h' ws, strdup pg fuel file s.heap = .ok (s.heap.mallocTop + 20, h', ws)
      ∧ h'.mallocTop = s.heap.mallocTop + 20 + (file.length + 1)
      ∧ HeapInv root ⟨h', s.given ++ [⟨s.heap.mallocTop + 20, file.length + 1⟩]⟩
      ∧ h'.mem.bytes (s.heap.mallocTop + 20) (file.length + 1) = file ++ [0]
      ∧ ∀ w ∈ ws, w.Inside ⟨s.heap.mallocTop + 20, file.length + 1⟩ := by
  obtain ⟨h₁, hcall, happ, hinv⟩ := h.malloc_returns_inv (Nat.succ_pos file.length) hfuel hfit hpages
  obtain ⟨hext, hbytes⟩ := strcpy_spec file (s.heap.mallocTop + 20) ⟨h₁.mem, []⟩
  obtain ⟨ws, hws, hin⟩ := hext.writes
  have hne : s.heap.mallocTop + 20 ≠ null := by
    unfold null
    omega
  refine ⟨{ h₁ with mem := (strcpy (s.heap.mallocTop + 20) file ⟨h₁.mem, []⟩).mem }, ws, ?_,
    happ.top_eq, ?_, hbytes, hin⟩
  · unfold strdup
    rw [u32_of_lt (by omega), hcall]
    simp only [if_neg hne, hws, List.nil_append]
  · exact hinv.write_payload (b := ⟨s.heap.mallocTop + 20, file.length + 1⟩) (by simp) hext

/-- `malloc` leaves what is in the blocks. -/
theorem Appended.payload_agree (h : HeapInv root s) {size : Nat} {h' : Heap σ}
    (happ : Appended pg size s.heap h') {b : Block} (hb : b ∈ root :: s.given) :
    Mem.Agree s.heap.mem h'.mem b.addr b.size := by
  obtain ⟨init, last, hsplit, hlast⟩ := h.last
  have hmem : last ∈ root :: s.given := by
    rw [hsplit]
    simp
  intro k hk
  have hout := h.payload_outside hb hmem (Nat.le_add_right b.addr k) (by omega)
  have hend := (h.bounds hb).2
  have haddr := h.addr_eq b hb
  rw [happ.mem_eq, Mem.writeWord_of_outside _ _ (by omega)]
  exact @initMblock_agree s.heap.mem _ size b.addr b.size (Or.inr (by omega)) k hk

/-- What `path` does in a heap that meets the invariant. -/
structure PathReturns (root : Block) (s : HeapState σ) (file : CString) (r : PathCall σ) : Prop where
  segs_eq : r.segs = (path file).length
  copy_eq : r.copy = ⟨s.heap.mallocTop + 20, file.length + 1⟩
  array_eq : r.array = ⟨r.p, 4 * r.segs⟩
  top_eq : r.heap.mallocTop = r.p + 4 * r.segs
  p_eq : r.p = s.heap.mallocTop + 20 + (file.length + 1) + 20
  inv : HeapInv root ⟨r.heap, s.given ++ [r.copy, r.array]⟩
  slots : Slots r.heap.mem r.p (path file)
  terminator : r.heap.mem.readWord (r.p + 4 * r.segs) = null
  writes : ∃ ws, r.writes = ws ++ [⟨r.p + 4 * r.segs, 4⟩]
    ∧ ∀ w ∈ ws, w.Inside r.copy.payload ∨ w.Inside r.array.payload

/-- The bytes of the copy from the first segment on. -/
theorem bytes_skipSlash {m : Mem} {file : CString} {copy : Nat}
    (hbytes : m.bytes copy (file.length + 1) = file ++ [0]) :
    let t := if file.head? = some slash then file.tail else file
    let i0 := if file.head? = some slash then 1 else 0
    m.bytes (copy + i0) (t.length + 1) = t ++ [0] ∧ i0 + t.length = file.length := by
  intro t i0
  unfold t i0
  split
  case isTrue hhead =>
    obtain ⟨b, t, rfl⟩ := List.exists_cons_of_ne_nil (l := file) (by rintro rfl; cases hhead)
    rw [List.length_cons, Mem.bytes_succ, List.cons_append] at hbytes
    exact ⟨(List.cons.inj hbytes).2, Nat.add_comm _ _⟩
  case isFalse => exact ⟨hbytes, Nat.zero_add _⟩

/-- The first half of the call: the copy, cut into the segments. -/
theorem cutCopy_spec (h : HeapInv root s) {file : CString} (hzero : 0 ∉ file) {fuel : Nat}
    (hfuel : s.given.length + 1 < fuel) (hfuel' : file.length < fuel)
    (hfit : s.heap.mallocTop + 20 + (file.length + 1) < 4294967296)
    (hpages : ∀ limit p, ∃ r, pg.pageMapUntil limit p = some r) :
    let copy : Block := ⟨s.heap.mallocTop + 20, file.length + 1⟩
    let str := copy.addr + if file.head? = some slash then 1 else 0
    ∃ h' ws j, strdup pg fuel file s.heap = .ok (copy.addr, h', ws)
      ∧ cutLoop fuel str 1 ⟨h'.mem, ws⟩ = .ok ((path file).length, j)
      ∧ h'.mallocTop = copy.addr + copy.size
      ∧ HeapInv root ⟨{ h' with mem := j.mem }, s.given ++ [copy]⟩
      ∧ (∀ w ∈ j.writes, w.Inside copy.payload)
      ∧ j.mem.bytes str (laidOut (path file)).length = laidOut (path file)
      ∧ str + (laidOut (path file)).length ≤ copy.addr + copy.size := by
  intro copy str
  have hsegs := path_length_pos hzero
  obtain ⟨h', ws, hdup, htop, hinv, hbytes, hin⟩ :=
    @strdup_spec σ pg root s h file fuel hfuel hfit hpages
  -- a leading `/` is skipped by a pointer into the copy
  obtain ⟨hstr, hlength⟩ := bytes_skipSlash hbytes
  obtain ⟨rest, hcut⟩ := cutSegments_path hzero
  have htzero := zero_not_mem_skipSlash hzero
  generalize (if file.head? = some slash then file.tail else file) = t at hstr hlength hcut htzero
  have hpayload : Extent.Inside ⟨str, t.length⟩ copy.payload := by
    refine ⟨Nat.le_add_right _ _, ?_⟩
    show copy.addr + _ + t.length ≤ copy.addr + (file.length + 1)
    omega
  obtain ⟨j, hcall, hext, hloop⟩ :=
    @cutLoop_spec t htzero fuel _ 1 ⟨h'.mem, ws⟩ (by omega) hstr
  rw [hcut] at hcall hloop
  have hbytes' : j.mem.bytes str (t.length + 1) = laidOut (path file) ++ rest := hloop
  rw [show 1 + ((path file).length - 1) = (path file).length by omega] at hcall
  have hlaid : (laidOut (path file)).length + rest.length = t.length + 1 := by
    rw [← List.length_append, ← hbytes', Mem.length_bytes]
  refine ⟨h', ws, j, hdup, hcall, htop, ?_, ?_, ?_, ?_⟩
  · exact hinv.write_payload (b := copy) (List.mem_append_right _ List.mem_cons_self)
      (hext.mono hpayload)
  · obtain ⟨ws', heq, hws'⟩ := hext.writes
    intro w hw
    rw [heq] at hw
    rcases List.mem_append.mp hw with hold | hnew
    · exact hin w hold
    · exact (hws' w hnew).trans hpayload
  · rw [← Mem.take_bytes _ _ (show (laidOut (path file)).length ≤ t.length + 1 by omega)]
    exact (congrArg _ hbytes').trans (List.take_left)
  · show copy.addr + _ + _ ≤ copy.addr + (file.length + 1)
    omega

theorem pathIn_spec (h : HeapInv root s) {file : CString} (hzero : 0 ∉ file) {fuel : Nat}
    (hfuel : s.given.length + 2 < fuel) (hfuel' : file.length < fuel)
    (hfit : s.heap.mallocTop + 20 + (file.length + 1) + 20 + 4 * (path file).length < 4294967296)
    (hpages : ∀ limit p, ∃ r, pg.pageMapUntil limit p = some r) :
    ∃ r, pathIn pg fuel file s.heap = .ok r ∧ PathReturns root s file r := by
  have hsegs := path_length_pos hzero
  obtain ⟨h₁, ws, j₁, hdup, hcut, htop, hinv, hws, hlaid, hbelow⟩ :=
    @cutCopy_spec σ pg root s h file hzero fuel (by omega) hfuel' (by omega) hpages
  -- the array is the block behind the copy
  obtain ⟨h₂, hmalloc, happ, hinv₂⟩ := @HeapInv.malloc_returns_inv σ pg _ _ hinv fuel
    (4 * (path file).length) (by omega) (by simp; omega)
    (by show h₁.mallocTop + 20 + _ < _; rw [htop]; exact hfit) hpages
  have hp : h₁.mallocTop + 20 = s.heap.mallocTop + 20 + (file.length + 1) + 20 := by rw [htop]
  have hkept := happ.payload_agree hinv (b := ⟨s.heap.mallocTop + 20, file.length + 1⟩) (by simp)
  have hlaid₂ := (hkept.sub (by omega)).bytes.trans hlaid
  have hshort : ∀ seg ∈ path file, seg.length < fuel := by
    intro seg hseg
    have hlt := length_lt_laidOut hseg
    have hle : s.heap.mallocTop + 20 + _ + _ ≤ s.heap.mallocTop + 20 + (file.length + 1) := hbelow
    omega
  obtain ⟨j₂, hstore, hext, hslots⟩ := @storeLoop_spec _ (zero_not_mem_path file) fuel
    (h₁.mallocTop + 20) _ ⟨h₂.mem, j₁.writes⟩ hshort hlaid₂ (by omega) (by omega)
  have hinv₃ := hinv₂.write_payload (b := ⟨h₁.mallocTop + 20, 4 * (path file).length⟩) (by simp) hext
  -- the terminator, behind the array
  have hend : h₂.mallocTop = h₁.mallocTop + 20 + 4 * (path file).length := happ.top_eq
  have hlast := j₂.extends_word (x := ⟨h₁.mallocTop + 20 + 4 * (path file).length, 4⟩) null
    ⟨Nat.le_refl _, Nat.le_refl _⟩
  refine ⟨⟨h₁.mallocTop + 20, (path file).length, ⟨s.heap.mallocTop + 20, file.length + 1⟩,
    ⟨h₁.mallocTop + 20, 4 * (path file).length⟩,
    { h₂ with mem := (j₂.word (h₁.mallocTop + 20 + 4 * (path file).length) null).mem },
    (j₂.word (h₁.mallocTop + 20 + 4 * (path file).length) null).writes⟩, ?_, ?_⟩
  · unfold pathIn
    rw [u32_of_lt (show file.length + 1 < 4294967296 by omega)]
    simp only [hdup, hcut]
    rw [u32_of_lt (show 4 * (path file).length < 4294967296 by omega), hmalloc]
    simp only [hstore]
  · refine ⟨rfl, rfl, rfl, hend, hp, ?_, ?_, ?_, ?_⟩
    · have hfinal := @HeapInv.write_above σ _ _ hinv₃ (j₂.word _ null).mem fun a ha =>
        hlast.frame a (Or.inl (Nat.lt_of_lt_of_le ha (Nat.le_of_eq hend)))
      simpa using hfinal
    · exact hslots _ (hlast.agree (Or.inl (by show _ ≤ h₁.mallocTop + 20 + _; omega)))
        (hlast.agree (Or.inl (Nat.le_refl _)))
    · exact Mem.readWord_writeWord _ _ (by decide)
    · obtain ⟨ws', heq, hws'⟩ := hext.writes
      refine ⟨j₁.writes ++ ws', congrArg (· ++ [_]) heq, ?_⟩
      intro w hw
      exact (List.mem_append.mp hw).imp (hws w) (hws' w)

/-! ## The stray write -/

/-- A write that lies in neither of the two blocks. -/
def PathCall.Stray (r : PathCall σ) (w : Extent) : Prop :=
  ¬ (w.Inside r.copy.payload ∨ w.Inside r.array.payload)

instance (r : PathCall σ) (w : Extent) : Decidable (r.Stray w) :=
  inferInstanceAs (Decidable (¬ (_ ∨ _)))

/-- The NULL behind the array lies behind both blocks. -/
theorem PathReturns.stray {file : CString} {r : PathCall σ} (h : PathReturns root s file r) :
    r.Stray ⟨r.p + 4 * r.segs, 4⟩ := by
  have hp := h.p_eq
  rintro (hcopy | harray)
  · have hhi := hcopy.2
    rw [h.copy_eq] at hhi
    have hle : r.p + 4 * r.segs + 4 ≤ s.heap.mallocTop + 20 + (file.length + 1) := hhi
    omega
  · have hhi := harray.2
    rw [h.array_eq] at hhi
    have hle : r.p + 4 * r.segs + 4 ≤ r.p + 4 * r.segs := hhi
    omega

theorem PathReturns.filter_stray {file : CString} {r : PathCall σ} (h : PathReturns root s file r) :
    r.writes.filter r.Stray = [⟨r.p + 4 * r.segs, 4⟩] := by
  obtain ⟨ws, heq, hws⟩ := h.writes
  have hinside : ws.filter r.Stray = [] := by
    rw [List.filter_eq_nil_iff]
    intro w hw
    exact fun hstray => of_decide_eq_true hstray (hws w hw)
  rw [heq, List.filter_append, hinside, List.filter_singleton, decide_eq_true h.stray]
  rfl

/-- The next `malloc` puts its header where the NULL is. -/
theorem PathReturns.malloc_overwrites {file : CString} {r : PathCall σ}
    (h : PathReturns root s file r) {fuel size addr : Nat} {h' : Heap σ} (hpos : 0 < size)
    (hfit : r.heap.mallocTop + 20 + size < 4294967296)
    (hcall : malloc pg fuel size r.heap = .ok (addr, h')) :
    h'.mem.readWord (r.p + 4 * r.segs) = mblockMagicValue := by
  have happ := (malloc_spec h.inv hpos hfit hcall).2
  have hlast := h.inv.last_le
  have hnew : InUse (initMblock r.heap.mem r.heap.mallocTop size) r.heap.mallocTop size null :=
    initMblock_inUse r.heap.mem (by omega) (by omega)
  rw [← h.top_eq, happ.mem_eq, Mem.readWord_writeWord_of_disjoint _ _ (Or.inl hlast)]
  exact hnew.magic

/-- **A write outside.** For every string, in every heap that callers can leave, `path` writes its NULL
behind the array it asked `malloc` for, outside both of its blocks; its other writes lie inside. The
next `malloc` overwrites the NULL with the magic number of a header. -/
theorem path_writes_outside {fuel₀ kernelVaddrEnd : Nat} {mb : MultibootInfo} {h₀ h : Heap σ}
    (hroot : mmHeapStart kernelVaddrEnd mb + 20 + 1 < 4294967296)
    (hmm : mm pg fuel₀ kernelVaddrEnd mb h₀ = .ok h)
    {tr : List (Transition (HeapState σ) HeapEvent)} {s : HeapState σ}
    (hrun : Run (HeapStep pg) ⟨h, []⟩ tr s) {file : CString} (hzero : 0 ∉ file) {fuel : Nat}
    (hfuel : s.given.length + 2 < fuel) (hfuel' : file.length < fuel)
    (hfit : s.heap.mallocTop + 20 + (file.length + 1) + 20 + 4 * (path file).length < 4294967296)
    (hpages : ∀ limit p, ∃ r, pg.pageMapUntil limit p = some r) :
    ∃ r, pathIn pg fuel file s.heap = .ok r
      ∧ ¬ (∀ w ∈ r.writes, w.Inside r.copy.payload ∨ w.Inside r.array.payload)
      ∧ r.writes.filter r.Stray = [⟨r.p + 4 * r.segs, 4⟩]
      ∧ r.heap.mem.readWord (r.p + 4 * r.segs) = null
      ∧ ∀ n size addr h', 0 < size → r.heap.mallocTop + 20 + size < 4294967296 →
          malloc pg n size r.heap = .ok (addr, h') →
          h'.mem.readWord (r.p + 4 * r.segs) = mblockMagicValue := by
  have hinv : HeapInv (rootBlock kernelVaddrEnd mb) s :=
    hrun.invariant (mm_inv hroot hmm) fun _ _ _ hpre hstep => hpre.step hstep
  obtain ⟨r, hcall, hr⟩ := pathIn_spec hinv hzero hfuel hfuel' hfit hpages
  refine ⟨r, hcall, ?_, hr.filter_stray, hr.terminator, ?_⟩
  · intro hall
    obtain ⟨ws, heq, _⟩ := hr.writes
    exact hr.stray (hall _ (by rw [heq]; simp))
  · intro n size addr h' hpos hfit' hmalloc
    exact hr.malloc_overwrites hpos hfit' hmalloc

/-- A kernel that ends at `0xC0001000`, without modules. -/
theorem flatPaging_mm : ∃ h, mm flatPaging 0x100001 0xC0001000 ⟨0x8000, 0, fun _ => ⟨0, 0⟩⟩
    ⟨fun _ => 0, 0, 0, 0, 0, 0⟩ = .ok h := by
  exact mm_returns _ _ (by decide) (Nat.le_refl _) (fun _ _ _ _ => ⟨_, rfl⟩) fun _ _ _ => ⟨_, rfl⟩

/-- `path` of `a`, right after `mm`: the array's one slot is followed by the NULL. -/
theorem path_writes_outside_one : ∃ (h : Heap Nat) (r : PathCall Nat),
    mm flatPaging 0x100001 0xC0001000 ⟨0x8000, 0, fun _ => ⟨0, 0⟩⟩ ⟨fun _ => 0, 0, 0, 0, 0, 0⟩ = .ok h
      ∧ pathIn flatPaging 3 [97] h = .ok r
      ∧ r.writes.filter r.Stray = [⟨r.p + 4 * r.segs, 4⟩] := by
  obtain ⟨h, hmm⟩ := flatPaging_mm
  have htop : h.mallocTop = 0xC0001015 := (mm_spec (by decide) hmm).2.2.2.2.1
  obtain ⟨r, hcall, _, hstray, _⟩ := @path_writes_outside Nat flatPaging _ _ _ _ _ (by decide) hmm
    _ _ Run.nil [97] (by decide) 3 (Nat.lt_succ_self 2) (by decide)
    (by show h.mallocTop + _ + _ + _ + _ < _; rw [htop]; decide) fun _ _ => ⟨_, rfl⟩
  exact ⟨h, r, hmm, hcall, hstray⟩

/-- `path` of `a/b`, right after `mm`: the array stands at `0xC0001041` and has two slots, and the NULL
goes to `0xC0001049`. -/
theorem path_writes_behind_array : ∃ (h : Heap Nat) (r : PathCall Nat),
    mm flatPaging 0x100001 0xC0001000 ⟨0x8000, 0, fun _ => ⟨0, 0⟩⟩ ⟨fun _ => 0, 0, 0, 0, 0, 0⟩ = .ok h
      ∧ pathIn flatPaging 4 [97, slash, 98] h = .ok r
      ∧ r.array = ⟨0xC0001041, 8⟩ ∧ ⟨0xC0001049, 4⟩ ∈ r.writes
      ∧ ¬ (∀ w ∈ r.writes, w.Inside r.copy.payload ∨ w.Inside r.array.payload) := by
  obtain ⟨h, hmm⟩ := flatPaging_mm
  have hinv := mm_inv (by decide) hmm
  have htop : h.mallocTop = 0xC0001015 := (mm_spec (by decide) hmm).2.2.2.2.1
  obtain ⟨r, hcall, hr⟩ := @pathIn_spec Nat flatPaging _ _ hinv [97, slash, 98] (by decide)
    4 (show 0 + 2 < 4 by decide) (by decide)
    (by show h.mallocTop + _ + _ + _ + _ < _; rw [htop]; decide) fun _ _ => ⟨_, rfl⟩
  have hp : r.p = 0xC0001041 := by
    have heq := hr.p_eq
    rw [show (HeapState.mk h []).heap.mallocTop = h.mallocTop from rfl, htop] at heq
    exact heq
  have hsegs : r.segs = 2 := hr.segs_eq
  obtain ⟨ws, heq, _⟩ := hr.writes
  have hmem : (⟨r.p + 4 * r.segs, 4⟩ : Extent) ∈ r.writes := by
    rw [heq]
    simp
  refine ⟨h, r, hmm, hcall, ?_, ?_, fun hall => hr.stray (hall _ hmem)⟩
  · rw [hr.array_eq, hp, hsegs]
  · rw [hp, hsegs] at hmem
    exact hmem

end DiyOS
