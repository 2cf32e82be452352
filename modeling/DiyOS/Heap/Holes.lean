import DiyOS.Heap.Integrity

/-!
# Holes in the kernel heap (`_find_hole`, `_split_hole`)

Block lists in which some blocks are holes. `_find_hole` takes the first one that is large enough, as a
whole if less than a header would remain, and else without what remains, a hole of its own.

* **`BlockList`** — well-formed lists: linked headers that tile a range with their payloads.
* **`findHole_eq`** — the block that `_find_hole` splits.
* **`splitHole_whole`**, **`splitHole_splits`** — what that does to the headers.
* **`hole_reuse_iff`** — the list that is left is well formed exactly if the hole has room for a header
  behind the request, and the last block is not split.
-/

namespace DiyOS

open Word

/-- A block of the list: the address of its header, and two fields of it. -/
structure Mblock where
  header : Nat
  hole : Nat
  size : Nat

namespace Mblock

/-- The header and the payload. -/
def extent (b : Mblock) : Extent := ⟨b.header, 20 + b.size⟩

/-- A hole with room for `size` bytes. -/
def Fits (size : Nat) (b : Mblock) : Prop := b.hole ≠ 0 ∧ size ≤ b.size

instance (size : Nat) (b : Mblock) : Decidable (b.Fits size) := inferInstanceAs (Decidable (_ ∧ _))

end Mblock

/-! ## Linked headers

A chain of blocks, with the pointer that its last one has. Splitting a hole replaces one block of the chain by
two. -/

/-- The header of `b` in memory, linked to `next`. -/
structure Header (m : Mem) (b : Mblock) (next : Nat) : Prop where
  magic : mblockMagic m b.header = mblockMagicValue
  hole_eq : mblockHole m b.header = b.hole
  size_eq : mblockSize m b.header = b.size
  addr : mblockAddr m b.header = b.header + 20
  next_eq : mblockNext m b.header = next

/-- The header that comes first, or the address that follows the blocks. -/
def chainStart : List Mblock → Nat → Nat
  | [], next => next
  | b :: _, _ => b.header

/-- Each header is linked to the one behind it, and the last one to `next`. -/
def Chain (m : Mem) : List Mblock → Nat → Prop
  | [], _ => True
  | b :: bs, next => Header m b (chainStart bs next) ∧ Chain m bs next

section

variable {m m' : Mem} {b : Mblock} {bs cs : List Mblock} {next : Nat}

theorem Header.of_agree (h : Header m b next) (hag : Mem.Agree m m' b.header 20) :
    Header m' b next where
  magic := (hag.readWord (show 0 + 4 ≤ 20 by decide)).trans h.magic
  hole_eq := (hag.readWord (show 4 + 4 ≤ 20 by decide)).trans h.hole_eq
  size_eq := (hag.readWord (show 8 + 4 ≤ 20 by decide)).trans h.size_eq
  addr := (hag.readWord (show 12 + 4 ≤ 20 by decide)).trans h.addr
  next_eq := (hag.readWord (show 16 + 4 ≤ 20 by decide)).trans h.next_eq

/-- Two blocks with one header are the same. -/
theorem Header.unique {c : Mblock} {next' : Nat} (h : Header m b next) (h' : Header m c next')
    (heq : b.header = c.header) : b = c ∧ next = next' := by
  have hhole : b.hole = c.hole := by rw [← h.hole_eq, heq, h'.hole_eq]
  have hsize : b.size = c.size := by rw [← h.size_eq, heq, h'.size_eq]
  refine ⟨?_, by rw [← h.next_eq, heq, h'.next_eq]⟩
  obtain ⟨header, hole, size⟩ := b
  obtain ⟨header', hole', size'⟩ := c
  simp_all

theorem chainStart_append : chainStart (bs ++ cs) next = chainStart bs (chainStart cs next) := by
  cases bs with
  | nil => rfl
  | cons b bs => rfl

theorem chain_append :
    Chain m (bs ++ cs) next ↔ Chain m bs (chainStart cs next) ∧ Chain m cs next := by
  induction bs with
  | nil => simp [Chain]
  | cons b bs ih => simp only [List.cons_append, Chain, ih, chainStart_append, and_assoc]

theorem Chain.of_agree (h : Chain m bs next) (hag : ∀ b ∈ bs, Mem.Agree m m' b.header 20) :
    Chain m' bs next := by
  induction bs with
  | nil => trivial
  | cons b bs ih =>
    refine ⟨h.1.of_agree (hag b List.mem_cons_self), ih h.2 ?_⟩
    exact fun c hc => hag c (List.mem_cons_of_mem _ hc)

/-- A list that ends with the null pointer begins with every chain that starts where it does. -/
theorem Chain.begins (h : Chain m bs next) (h' : Chain m cs null) (hstart : chainStart bs next = chainStart cs null)
    (hpos : ∀ b ∈ bs, b.header ≠ null) : ∃ rest, cs = bs ++ rest ∧ chainStart rest null = next := by
  induction bs generalizing cs with
  | nil => exact ⟨cs, rfl, hstart.symm⟩
  | cons b bs ih =>
    obtain ⟨hb, hbs⟩ := List.forall_mem_cons.mp hpos
    cases cs with
    | nil => exact absurd hstart hb
    | cons c cs =>
      obtain ⟨rfl, hnext⟩ := h.1.unique h'.1 hstart
      obtain ⟨rest, rfl, hrest⟩ := ih h.2 h'.2 hnext hbs
      exact ⟨rest, rfl, hrest⟩

end

/-- **A well-formed block list** from `root_mblock` to `malloc_top`, with `last_block` the last one. -/
structure BlockList (m : Mem) (root last top : Nat) (blocks : List Mblock) : Prop where
  chain : Chain m blocks null
  tiles : Extent.EndToEnd root (blocks.map Mblock.extent) top
  last_eq : blocks.getLast?.map Mblock.header = some last
  root_pos : 0 < root
  top_lt : top < 4294967296

section

variable {m : Mem} {root last top size : Nat} {blocks : List Mblock}

theorem BlockList.bounds (h : BlockList m root last top blocks) {b : Mblock} (hb : b ∈ blocks) :
    root ≤ b.header ∧ b.header + 20 + b.size ≤ top := by
  obtain ⟨hlo, hhi⟩ := h.tiles.bounds.2 b.extent (List.mem_map_of_mem hb)
  have hend : b.header + (20 + b.size) ≤ top := hhi
  exact ⟨hlo, by omega⟩

theorem BlockList.header_ne_null (h : BlockList m root last top blocks) {b : Mblock} (hb : b ∈ blocks) :
    b.header ≠ null := by
  have hpos := h.root_pos
  have hlo := (h.bounds hb).1
  unfold null
  omega

theorem BlockList.start (h : BlockList m root last top blocks) : chainStart blocks null = root := by
  cases blocks with
  | nil => cases h.last_eq
  | cons b bs => exact h.tiles.1

/-- The blocks around one of them. -/
theorem BlockList.split {pre post : List Mblock} {c : Mblock}
    (h : BlockList m root last top (pre ++ c :: post)) :
    (∀ b ∈ pre, b.header + 20 + b.size ≤ c.header)
      ∧ ∀ b ∈ post, c.header + 20 + c.size ≤ b.header := by
  have hpair := h.tiles.pairwise_before
  rw [List.pairwise_map, List.pairwise_append, List.pairwise_cons] at hpair
  obtain ⟨_, ⟨hpost, _⟩, hpre⟩ := hpair
  refine ⟨fun b hb => ?_, fun b hb => ?_⟩
  · have hle : b.header + (20 + b.size) ≤ c.header := hpre b hb c List.mem_cons_self
    omega
  · have hle : c.header + (20 + c.size) ≤ b.header := hpost b hb
    omega

/-! ## The hole that is found

The first that is large enough. -/

/-- **The search** goes to the first hole with room, and gives it to `_split_hole`. -/
theorem findHole_chain {bs : List Mblock} (h : Chain m bs null) (hpos : ∀ b ∈ bs, b.header ≠ null)
    {fuel : Nat} (hfuel : bs.length < fuel) :
    findHole fuel m (chainStart bs null) size
      = .ok (match bs.find? fun b => b.Fits size with
        | none => (null, m)
        | some c => splitHole m c.header size) := by
  induction bs generalizing fuel with
  | nil =>
    obtain ⟨fuel, rfl⟩ := Nat.exists_eq_add_of_lt hfuel
    simp [findHole, chainStart]
  | cons b bs ih =>
    obtain ⟨hb, hbs⟩ := List.forall_mem_cons.mp hpos
    rw [List.length_cons] at hfuel
    obtain ⟨fuel, rfl⟩ : ∃ n, fuel = n + 1 := ⟨fuel - 1, by omega⟩
    have hrest := ih h.2 hbs (show bs.length < fuel by omega)
    rw [findHole, chainStart, if_neg hb, if_pos h.1.magic, h.1.hole_eq, h.1.size_eq, h.1.next_eq, hrest]
    by_cases hfits : b.Fits size
    · have hboth : b.hole ≠ 0 ∧ size ≤ b.size := hfits
      rw [if_pos hboth, List.find?_cons_of_pos (by simpa using hfits)]
    · have hneither : ¬ (b.hole ≠ 0 ∧ size ≤ b.size) := hfits
      rw [if_neg hneither, List.find?_cons_of_neg (by simpa using hfits)]

theorem findHole_eq (h : BlockList m root last top blocks) {fuel : Nat} (hfuel : blocks.length < fuel) :
    findHole fuel m root size
      = .ok (match blocks.find? fun b => b.Fits size with
        | none => (null, m)
        | some c => splitHole m c.header size) := by
  rw [← h.start]
  exact findHole_chain h.chain (fun b hb => h.header_ne_null hb) hfuel

end

/-! ## What `_split_hole` writes

The hole is given its new size, and a header is written where the rest begins. Nothing tests whether the rest has
room for one. -/

section

variable {m : Mem} {c : Mblock} {next size : Nat}

/-- Less than a header remains: the block is taken as a whole. -/
theorem splitHole_whole (h : Header m c next) (hfits : c.Fits size) (hroom : size + 20 ≤ c.size)
    (hless : c.size < size + 40) (hword : c.size < 4294967296) :
    splitHole m c.header size = (c.header, m.writeWord (c.header + 4) 0) := by
  have hsub : sub32 c.size (u32 (size + 20)) = c.size - (size + 20) := by
    rw [u32_of_lt (by omega), sub32_of_le hroom hword]
  unfold splitHole
  rw [h.hole_eq, h.size_eq, hsub, if_neg hfits.1, if_pos (by omega)]

theorem Header.whole (h : Header m c next) :
    Header (m.writeWord (c.header + 4) 0) { c with hole := 0 } next where
  magic := (Mem.readWord_writeWord_of_disjoint _ _ (by dsimp only; omega)).trans h.magic
  hole_eq := Mem.readWord_writeWord _ _ (by decide)
  size_eq := (Mem.readWord_writeWord_of_disjoint _ _ (by dsimp only; omega)).trans h.size_eq
  addr := (Mem.readWord_writeWord_of_disjoint _ _ (by dsimp only; omega)).trans h.addr
  next_eq := (Mem.readWord_writeWord_of_disjoint _ _ (by dsimp only; omega)).trans h.next_eq

/-- `m'` is `m` with the hole `c` split: the used block of `size` bytes is linked to the new hole behind
it, whose size may have wrapped. -/
structure Split (m m' : Mem) (c : Mblock) (size next : Nat) : Prop where
  used : Header m' ⟨c.header, 0, size⟩ (c.header + 20 + size)
  size_eq : mblockSize m' (c.header + 20 + size) = sub32 (sub32 c.size 20) size
  rest : c.header + 20 + size + 20 < 4294967296 →
    Header m' ⟨c.header + 20 + size, 1, sub32 (sub32 c.size 20) size⟩ next
  frame : ∀ a n, a + n ≤ c.header ∨ c.header + 20 + size + 20 ≤ a → Mem.Agree m m' a n

/-- The eight words that `_split_hole` writes. -/
def splitHeaders (m : Mem) (b newHole size rest next : Nat) : Mem :=
  let m := m.writeWord newHole mblockMagicValue
  let m := m.writeWord (newHole + 4) 1
  let m := m.writeWord (newHole + 8) rest
  let m := m.writeWord (newHole + 12) (u32 (newHole + 20))
  let m := m.writeWord (b + 4) 0
  let m := m.writeWord (b + 8) size
  let m := m.writeWord (newHole + 16) next
  m.writeWord (b + 16) newHole

/-- What is written when a hole is split. -/
theorem splitHole_headers (h : Header m c next) (hfits : c.Fits size)
    (hword : c.header + 20 + c.size < 4294967296) (hcut : c.size < size + 20 ∨ size + 40 ≤ c.size) :
    splitHole m c.header size = (c.header,
      splitHeaders m c.header (c.header + 20 + size) size (sub32 (sub32 c.size 20) size) next) := by
  obtain ⟨hhole, hsize⟩ := hfits
  have hsub : ¬ sub32 c.size (u32 (size + 20)) < 20 := by
    unfold sub32 u32
    omega
  have hnew : u32 (c.header + 20 + size) = c.header + 20 + size := u32_of_lt (by omega)
  have hsizeEq : m.readWord (c.header + 8) = c.size := h.size_eq
  have haddr : m.readWord (c.header + 12) = c.header + 20 := h.addr
  have hnext : m.readWord (c.header + 16) = next := h.next_eq
  unfold splitHole
  rw [h.hole_eq, h.size_eq, h.addr, if_neg hhole, if_neg hsub, hnew]
  unfold splitHeaders mblockSize mblockAddr mblockNext
  -- the header is read again behind writes to the other one
  simp (disch := omega) only [Mem.readWord_writeWord_of_disjoint, hsizeEq, haddr, hnext]

section

variable {b newHole rest : Nat} (happart : b + 20 ≤ newHole)
include happart

/-- The words of the used block that are read back. -/
theorem splitHeaders_used (hsize : size < 4294967296) (hnew : newHole < 4294967296) :
    let m' := splitHeaders m b newHole size rest next
    m'.readWord b = m.readWord b ∧ m'.readWord (b + 4) = 0 ∧ m'.readWord (b + 8) = size
      ∧ m'.readWord (b + 12) = m.readWord (b + 12) ∧ m'.readWord (b + 16) = newHole := by
  dsimp only [splitHeaders]
  refine ⟨?_, ?_, ?_, ?_, ?_⟩
  all_goals simp (disch := omega) only [Mem.readWord_writeWord_of_disjoint, Mem.readWord_writeWord]

/-- The words of the new hole that are read back. -/
theorem splitHeaders_rest (hrest : rest < 4294967296) (hnext : next < 4294967296) :
    let m' := splitHeaders m b newHole size rest next
    m'.readWord newHole = mblockMagicValue ∧ m'.readWord (newHole + 4) = 1
      ∧ m'.readWord (newHole + 8) = rest ∧ m'.readWord (newHole + 12) = u32 (newHole + 20)
      ∧ m'.readWord (newHole + 16) = next := by
  have hmagic : mblockMagicValue < 4294967296 := by decide
  have haddr : u32 (newHole + 20) < 4294967296 := u32_lt _
  dsimp only [splitHeaders]
  refine ⟨?_, ?_, ?_, ?_, ?_⟩
  all_goals simp (disch := omega) only [Mem.readWord_writeWord_of_disjoint, Mem.readWord_writeWord]

theorem splitHeaders_agree {a n : Nat} (hout : a + n ≤ b ∨ newHole + 20 ≤ a) :
    Mem.Agree m (splitHeaders m b newHole size rest next) a n := by
  intro k hk
  unfold splitHeaders
  simp (disch := omega) only [Mem.writeWord_of_outside]

end

theorem splitHeaders_split (h : Header m c next) (hword : c.header + 20 + size < 4294967296) :
    Split m (splitHeaders m c.header (c.header + 20 + size) size (sub32 (sub32 c.size 20) size) next)
      c size next := by
  have hnext : next < 4294967296 := h.next_eq ▸ Mem.readWord_lt _ _
  have hrest : sub32 (sub32 c.size 20) size < 4294967296 := u32_lt _
  have happart : c.header + 20 ≤ c.header + 20 + size := Nat.le_add_right _ _
  obtain ⟨hmagic, hhole, hsizeEq, haddr, hlink⟩ := @splitHeaders_used m next size c.header
    (c.header + 20 + size) (sub32 (sub32 c.size 20) size) happart (by omega) hword
  obtain ⟨hmagic', hhole', hsizeEq', haddr', hlink'⟩ := @splitHeaders_rest m next size c.header
    (c.header + 20 + size) (sub32 (sub32 c.size 20) size) happart hrest hnext
  refine ⟨⟨hmagic.trans h.magic, hhole, hsizeEq, haddr.trans h.addr, hlink⟩, hsizeEq', ?_, ?_⟩
  · intro hfit
    exact ⟨hmagic', hhole', hsizeEq', haddr'.trans (u32_of_lt hfit), hlink'⟩
  · exact fun a n hout => splitHeaders_agree happart hout

end

/-! ## The list that is left

With room for a header, the block and the hole behind it replace the old hole, and all other blocks are left. -/

section

variable {m m' : Mem} {root last top size : Nat} {pre mid post : List Mblock} {c : Mblock}

/-- One block replaced by others that tile the same range, in a memory that differs in that range only. -/
theorem BlockList.replace (h : BlockList m root last top (pre ++ c :: post))
    (hagree : ∀ a n, a + n ≤ c.header ∨ c.header + 20 + c.size ≤ a → Mem.Agree m m' a n)
    (hmid : Chain m' mid (chainStart post null)) (hstart : ∀ next, chainStart mid next = c.header)
    (htiles : Extent.EndToEnd c.header (mid.map Mblock.extent) (c.header + 20 + c.size))
    (hlast : (mid ++ post).getLast?.map Mblock.header = (c :: post).getLast?.map Mblock.header) :
    BlockList m' root last top (pre ++ (mid ++ post)) := by
  obtain ⟨hbefore, hafter⟩ := h.split
  obtain ⟨hpre, _, hpost⟩ := chain_append.mp h.chain
  refine ⟨?_, ?_, ?_, h.root_pos, h.top_lt⟩
  · refine chain_append.mpr ⟨?_, chain_append.mpr ⟨hmid, ?_⟩⟩
    · rw [chainStart_append, hstart]
      exact hpre.of_agree fun b hb => hagree _ _ (Or.inl (by have := hbefore b hb; omega))
    · exact hpost.of_agree fun b hb => hagree _ _ (Or.inr (hafter b hb))
  · have hold := h.tiles
    rw [List.map_append, List.map_cons, Extent.endToEnd_append] at hold
    obtain ⟨a, hlo, hhere, hhi⟩ := hold
    have hend : c.extent.fin = c.header + 20 + c.size := (Nat.add_assoc c.header 20 c.size).symm
    rw [hend] at hhi
    rw [List.map_append, List.map_append]
    refine hlo.append (Extent.EndToEnd.append ?_ hhi)
    rw [← hhere]
    exact htiles
  · have hold := h.last_eq
    have hne : (mid ++ post).getLast?.isSome := by
      rw [← Option.isSome_map (f := Mblock.header), hlast, Option.isSome_map]
      simp
    rw [List.getLast?_append_of_ne_nil _ (List.cons_ne_nil c post), ← hlast] at hold
    rw [List.getLast?_append_of_ne_nil _ (by rintro hnil; simp [hnil] at hne)]
    exact hold

/-- A well-formed list that begins with the chain `bs` goes on behind it. -/
theorem BlockList.continues {blocks bs : List Mblock} {next : Nat} (h : BlockList m root last top blocks)
    (hbs : Chain m bs next) (hpos : ∀ b ∈ bs, b.header ≠ null) (hstart : chainStart bs next = root)
    (hnext : next ≠ null) : ∃ z rest, blocks = bs ++ z :: rest ∧ z.header = next := by
  obtain ⟨rest, rfl, hrest⟩ := hbs.begins h.chain (hstart.trans h.start.symm) hpos
  cases rest with
  | nil => exact absurd hrest.symm hnext
  | cons z rest => exact ⟨z, rest, rfl, hrest⟩

end

/-- `b` was a hole with room for `size` bytes, and is in use; the list is well formed over the same range,
with the same last block, and no other block has changed. -/
def HoleReused (m m' : Mem) (root last top : Nat) (blocks : List Mblock) (size b : Nat) : Prop :=
  (∃ c ∈ blocks, c.header = b ∧ c.Fits size)
    ∧ ∃ blocks', BlockList m' root last top blocks'
      ∧ (∃ c ∈ blocks', c.header = b ∧ c.hole = 0 ∧ size ≤ c.size)
      ∧ ∀ d ∈ blocks, d.header ≠ b → d ∈ blocks' ∧ Mem.Agree m m' d.header (20 + d.size)

section

variable {m m' : Mem} {root last top size next : Nat} {pre post : List Mblock} {c : Mblock}

/-- The other blocks are still there, and unchanged. -/
theorem BlockList.others_kept (h : BlockList m root last top (pre ++ c :: post)) {mid : List Mblock}
    (hagree : ∀ a n, a + n ≤ c.header ∨ c.header + 20 + c.size ≤ a → Mem.Agree m m' a n) {d : Mblock}
    (hd : d ∈ pre ++ c :: post) (hne : d.header ≠ c.header) :
    d ∈ pre ++ (mid ++ post) ∧ Mem.Agree m m' d.header (20 + d.size) := by
  obtain ⟨hbefore, hafter⟩ := h.split
  rcases List.mem_append.mp hd with hpre | hrest
  · refine ⟨List.mem_append_left _ hpre, hagree _ _ (Or.inl ?_)⟩
    have hle := hbefore d hpre
    omega
  · rcases List.mem_cons.mp hrest with rfl | hpost
    · exact absurd rfl hne
    · exact ⟨List.mem_append_right _ (List.mem_append_right _ hpost), hagree _ _ (Or.inr (hafter d hpost))⟩

/-- A hole taken as a whole leaves a well-formed list. -/
theorem holeReused_whole (h : BlockList m root last top (pre ++ c :: post)) (hfits : c.Fits size) :
    HoleReused m (m.writeWord (c.header + 4) 0) root last top (pre ++ c :: post) size c.header := by
  have hheader := (chain_append.mp h.chain).2.1
  have hagree : ∀ a n, a + n ≤ c.header ∨ c.header + 20 + c.size ≤ a →
      Mem.Agree m (m.writeWord (c.header + 4) 0) a n :=
    fun a n hout => Mem.writeWord_agree m 0 (by omega)
  refine ⟨⟨c, by simp, rfl, hfits⟩, pre ++ ([{ c with hole := 0 }] ++ post), ?_, ?_, ?_⟩
  · refine h.replace hagree ⟨hheader.whole, trivial⟩ (fun _ => rfl) ⟨rfl, ?_⟩ ?_
    · exact (Nat.add_assoc c.header 20 c.size).symm
    · cases post with
      | nil => rfl
      | cons d post => simp [List.getLast?_cons]
  · exact ⟨{ c with hole := 0 }, by simp, rfl, rfl, hfits.2⟩
  · exact fun d hd hne => h.others_kept hagree hd hne

/-- A hole that is split in front of another block, with room for the new header. -/
theorem holeReused_split (h : BlockList m root last top (pre ++ c :: post)) (hfits : c.Fits size)
    (hroom : size + 40 ≤ c.size) (hlast : c.header ≠ last)
    (hsplit : Split m m' c size (chainStart post null)) :
    HoleReused m m' root last top (pre ++ c :: post) size c.header := by
  have hbounds := (h.bounds (show c ∈ pre ++ c :: post by simp)).2
  have htop := h.top_lt
  have hrest : sub32 (sub32 c.size 20) size = c.size - 20 - size := by
    rw [sub32_of_le (show 20 ≤ c.size by omega) (by omega), sub32_of_le (by omega) (by omega)]
  have hnew := hsplit.rest (by omega)
  rw [hrest] at hnew
  have hagree : ∀ a n, a + n ≤ c.header ∨ c.header + 20 + c.size ≤ a → Mem.Agree m m' a n :=
    fun a n hout => hsplit.frame a n (by omega)
  refine ⟨⟨c, by simp, rfl, hfits⟩, pre ++ ([⟨c.header, 0, size⟩,
    ⟨c.header + 20 + size, 1, c.size - 20 - size⟩] ++ post), ?_, ?_, ?_⟩
  · refine h.replace hagree ⟨hsplit.used, hnew, trivial⟩ (fun _ => rfl) ⟨rfl, ?_, ?_⟩ ?_
    · exact Nat.add_assoc c.header 20 size
    · show c.header + 20 + size + (20 + (c.size - 20 - size)) = c.header + 20 + c.size
      omega
    · -- the block that was split is not the last one
      have hend := h.last_eq
      cases post with
      | nil =>
        rw [List.getLast?_append_of_ne_nil _ (List.cons_ne_nil c [])] at hend
        exact absurd (Option.some.inj hend) hlast
      | cons d post => simp [List.getLast?_cons]
  · exact ⟨⟨c.header, 0, size⟩, by simp, rfl, rfl, Nat.le_refl _⟩
  · exact fun d hd hne => h.others_kept hagree hd hne

/-- Every well-formed list behind a split has the new hole as its next block. -/
theorem BlockList.behind_split (h : BlockList m root last top (pre ++ c :: post))
    (hsplit : Split m m' c size next) {blocks' : List Mblock}
    (h' : BlockList m' root last top blocks') :
    ∃ z rest, blocks' = pre ++ [⟨c.header, 0, size⟩] ++ z :: rest
      ∧ z.header = c.header + 20 + size ∧ z.size = sub32 (sub32 c.size 20) size := by
  obtain ⟨hbefore, _⟩ := h.split
  have hpre := (chain_append.mp h.chain).1
  -- the chain goes on behind the used part, and the list that holds now has to follow it
  have hbegin : Chain m' (pre ++ [⟨c.header, 0, size⟩]) (c.header + 20 + size) := by
    refine chain_append.mpr ⟨?_, hsplit.used, trivial⟩
    exact hpre.of_agree fun b hb => hsplit.frame _ _ (Or.inl (by have := hbefore b hb; omega))
  have hc : c.header ≠ null := h.header_ne_null (show c ∈ pre ++ c :: post by simp)
  have hpos : ∀ b ∈ pre ++ [⟨c.header, 0, size⟩], b.header ≠ null := by
    intro b hb
    rcases List.mem_append.mp hb with hin | hin
    · exact h.header_ne_null (List.mem_append_left _ hin)
    · rw [List.mem_singleton] at hin
      subst hin
      exact hc
  have hstart : chainStart (pre ++ [⟨c.header, 0, size⟩]) (c.header + 20 + size) = root := by
    rw [chainStart_append, ← h.start, chainStart_append]
    rfl
  obtain ⟨z, rest, rfl, hz⟩ :=
    h'.continues hbegin hpos hstart (show c.header + 20 + size ≠ 0 by omega)
  refine ⟨z, rest, rfl, hz, ?_⟩
  have hheader := (chain_append.mp h'.chain).2.1
  rw [← hheader.size_eq, hz, hsplit.size_eq]

/-- No room for the new header: its size wraps, and no well-formed list is left. -/
theorem not_holeReused_of_wrap (h : BlockList m root last top (pre ++ c :: post)) (hsize : size ≤ c.size)
    (hless : c.size < size + 20) (hsplit : Split m m' c size next) :
    ¬ HoleReused m m' root last top (pre ++ c :: post) size c.header := by
  rintro ⟨_, blocks', h', _⟩
  obtain ⟨z, rest, rfl, hz, hzsize⟩ := h.behind_split hsplit h'
  have hend := (h'.bounds (show z ∈ _ by simp)).2
  have htop := h.top_lt
  have hbounds := (h.bounds (show c ∈ pre ++ c :: post by simp)).2
  have hwrap : sub32 (sub32 c.size 20) size = 4294967296 - (size + 20 - c.size) := by
    unfold sub32 u32
    omega
  omega

/-- The last block is split: `last_block` is not the last one any more. -/
theorem not_holeReused_of_last (h : BlockList m root last top (pre ++ c :: post)) (hlast : c.header = last)
    (hsplit : Split m m' c size next) :
    ¬ HoleReused m m' root last top (pre ++ c :: post) size c.header := by
  rintro ⟨_, blocks', h', _⟩
  obtain ⟨z, rest, rfl, hz, _⟩ := h.behind_split hsplit h'
  have hend := h'.last_eq
  rw [List.getLast?_append_of_ne_nil _ (List.cons_ne_nil z rest)] at hend
  obtain ⟨d, hd, hdlast⟩ := Option.map_eq_some_iff.mp hend
  -- the last header is that of `z`, or one behind it
  have hge : z.header ≤ d.header := by
    rcases List.mem_cons.mp (List.mem_of_getLast? hd) with rfl | hin
    · exact Nat.le_refl _
    · have hle := h'.split.2 d hin
      omega
  omega

/-- **The hole that is found**, split or not. -/
theorem hole_found_iff (h : BlockList m root last top (pre ++ c :: post)) (hfits : c.Fits size) :
    ∃ m', splitHole m c.header size = (c.header, m')
      ∧ (HoleReused m m' root last top (pre ++ c :: post) size c.header
        ↔ size + 20 ≤ c.size ∧ (c.size < size + 40 ∨ c.header ≠ last)) := by
  have hbounds := (h.bounds (show c ∈ pre ++ c :: post by simp)).2
  have htop := h.top_lt
  have hheader := (chain_append.mp h.chain).2.1
  have hsize := hfits.2
  by_cases hwhole : size + 20 ≤ c.size ∧ c.size < size + 40
  · refine ⟨_, splitHole_whole hheader hfits hwhole.1 hwhole.2 (by omega), ?_⟩
    exact iff_of_true (holeReused_whole h hfits) ⟨hwhole.1, Or.inl hwhole.2⟩
  · refine ⟨_, splitHole_headers hheader hfits (by omega) (by omega), ?_⟩
    have hsplit := splitHeaders_split hheader (show c.header + 20 + size < 4294967296 by omega)
    by_cases hroom : size + 40 ≤ c.size
    · by_cases hlast : c.header = last
      · refine iff_of_false (not_holeReused_of_last h hlast hsplit) ?_
        rintro ⟨_, hless | hne⟩
        · omega
        · exact hne hlast
      · exact iff_of_true (holeReused_split h hfits hroom hlast hsplit) ⟨by omega, Or.inr hlast⟩
    · exact iff_of_false (not_holeReused_of_wrap h hsize (by omega) hsplit) fun hcond => by omega

end

/-- **Reuse of a hole.** In any well-formed list of blocks, some of them holes, `_find_hole` returns; what
it returns is null, or a block that was a hole of sufficient size. The list is well formed again over the
same range, with the same last block and all other blocks as they were, if and only if the first hole with
room for `size` bytes has room for a header behind them, and is not the last block when a hole remains. -/
theorem hole_reuse_iff {m : Mem} {root last top : Nat} {blocks : List Mblock}
    (h : BlockList m root last top blocks) (size : Nat) {fuel : Nat} (hfuel : blocks.length < fuel) :
    ∃ b m', findHole fuel m root size = .ok (b, m')
      ∧ ((b ≠ null → HoleReused m m' root last top blocks size b)
        ↔ ∀ c, (blocks.find? fun c => c.Fits size) = some c →
          size + 20 ≤ c.size ∧ (c.size < size + 40 ∨ c.header ≠ last)) := by
  rw [findHole_eq h hfuel]
  cases hfind : blocks.find? fun c => c.Fits size with
  | none =>
    refine ⟨null, m, rfl, iff_of_true (fun hne => absurd rfl hne) ?_⟩
    intro c hc
    cases hc
  | some c =>
    obtain ⟨hfits, pre, post, rfl, _⟩ := List.find?_eq_some_iff_append.mp hfind
    obtain ⟨m', hsplit, hiff⟩ := hole_found_iff h (of_decide_eq_true hfits)
    have hne := h.header_ne_null (show c ∈ pre ++ c :: post by simp)
    refine ⟨c.header, m', congrArg Except.ok hsplit, ?_⟩
    constructor
    · rintro hreused c' hc'
      obtain rfl := Option.some.inj hc'
      exact hiff.mp (hreused hne)
    · exact fun hcond _ => hiff.mpr (hcond c rfl)

/-! ## Lists

Examples of lists, with and without a hole that fits. -/

/-- A list of one block of `size` bytes, a hole. -/
theorem blockList_hole {b size : Nat} (hb : 0 < b) (htop : b + 20 + size < 4294967296) :
    BlockList ((initMblock (fun _ => 0) b size).writeWord (b + 4) 1) b b (b + 20 + size)
      [⟨b, 1, size⟩] := by
  have hinit := initMblock_inUse (fun _ => 0) (show b + 20 < 4294967296 by omega)
    (show size < 4294967296 by omega)
  refine ⟨⟨⟨?_, ?_, ?_, ?_, ?_⟩, trivial⟩, ⟨rfl, ?_⟩, rfl, hb, htop⟩
  · exact (Mem.readWord_writeWord_of_disjoint _ 1 (by dsimp only; omega)).trans hinit.magic
  · exact Mem.readWord_writeWord _ _ (by decide)
  · exact (Mem.readWord_writeWord_of_disjoint _ 1 (by dsimp only; omega)).trans hinit.size_eq
  · exact (Mem.readWord_writeWord_of_disjoint _ 1 (by dsimp only; omega)).trans hinit.addr
  · exact (Mem.readWord_writeWord_of_disjoint _ 1 (by dsimp only; omega)).trans hinit.next_eq
  · show b + (20 + size) = b + 20 + size
    omega

/-- A hole of 100 bytes, and a request for 70 of them. -/
theorem hole_reuse_seventy :
    ∃ b m', findHole 2 ((initMblock (fun _ => 0) 0xC0001000 100).writeWord (0xC0001000 + 4) 1)
        0xC0001000 70 = .ok (b, m')
      ∧ (b ≠ null → HoleReused ((initMblock (fun _ => 0) 0xC0001000 100).writeWord (0xC0001000 + 4) 1)
        m' 0xC0001000 0xC0001000 (0xC0001000 + 20 + 100) [⟨0xC0001000, 1, 100⟩] 70 b) := by
  obtain ⟨b, m', hfind, hiff⟩ := hole_reuse_iff
    (@blockList_hole 0xC0001000 100 (by decide) (by decide)) 70 (show 1 < 2 by decide)
  refine ⟨b, m', hfind, hiff.mpr fun c hc => ?_⟩
  obtain rfl : c = ⟨0xC0001000, 1, 100⟩ := (Option.some.inj hc).symm
  decide

/-- A request for all 100 bytes of the hole: the size of the hole behind them wraps. -/
theorem hole_reuse_wraps :
    ∃ m', findHole 2 ((initMblock (fun _ => 0) 0xC0001000 100).writeWord (0xC0001000 + 4) 1)
        0xC0001000 100 = .ok (0xC0001000, m')
      ∧ ¬ HoleReused ((initMblock (fun _ => 0) 0xC0001000 100).writeWord (0xC0001000 + 4) 1)
        m' 0xC0001000 0xC0001000 (0xC0001000 + 20 + 100) [⟨0xC0001000, 1, 100⟩] 100 0xC0001000 := by
  have hlist := @blockList_hole 0xC0001000 100 (by decide) (by decide)
  obtain ⟨m', hsplit, hiff⟩ := @hole_found_iff _ _ _ _ 100 [] [] _ hlist (by decide)
  refine ⟨m', ?_, fun hreused => absurd (hiff.mp hreused).1 (by decide)⟩
  rw [findHole_eq hlist (show 1 < 2 by decide)]
  exact congrArg Except.ok hsplit

end DiyOS
