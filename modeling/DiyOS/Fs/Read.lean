import DiyOS.Fs.Ramfs

/-!
# Reading at an offset (`ramfs_read`)

`ramfs_read` clips the size to what the file has behind the offset. But the copy starts at the first
byte of the file, whatever the offset is, and the sum that is compared with the file's size wraps at
`2 ^ 32`.

* **`ramfsRead_eq`** — what a read returns and copies, for every offset and size.
* **`ramfsRead_positioned_iff`** — the bytes are those behind the offset exactly where the file repeats
  itself at that distance; and pieces add up to the file under the same condition.
* **`ramfsRead_clipped_iff`** — the count is within the request and the file exactly where the sum does
  not wrap, or the offset lies behind the end.
-/

namespace DiyOS

open Word

/-! ## What a read does -/

/-- The node is a file of the RAM disk; its header stands at `header`. -/
def HeaderOf (v : Vfs) (node : NodePtr) (header : Nat) : Prop :=
  ∃ i, (v.node node).inode = .index i ∧ v.headers[i]? = some header

/-- The contents of the file whose header stands at `header`. -/
def fileContents (m : Mem) (header : Nat) : List UInt8 :=
  m.bytes (header + 512) (tarGetsize m (header + 124))

/-- The number of bytes that `ramfs_read` copies from a file of `fileSz` bytes. -/
def readCount (fileSz offset size : Nat) : Nat :=
  if offset > fileSz then 0 else if u32 (offset + size) > fileSz then fileSz - offset else size

theorem tarGetsize_lt (m : Mem) (field : Nat) : tarGetsize m field < 4294967296 := u32_lt _

section

variable {m : Mem} {v : Vfs} {node : NodePtr} {header : Nat}

/-- **One read**: so many bytes, from the start of the file. -/
theorem ramfsRead_eq (h : HeaderOf v node header) (offset size : Nat) :
    ramfsRead m v node offset size
      = .ok (readCount (tarGetsize m (header + 124)) offset size,
          m.bytes (header + 512) (readCount (tarGetsize m (header + 124)) offset size)) := by
  rcases h with ⟨i, hinode, hget⟩
  have hlt := tarGetsize_lt m (header + 124)
  unfold ramfsRead readCount
  rw [hinode]
  simp only [hget]
  by_cases hbehind : offset > tarGetsize m (header + 124)
  · simp only [if_pos hbehind]
    rfl
  · have hrest : sub32 (tarGetsize m (header + 124)) offset = tarGetsize m (header + 124) - offset :=
      sub32_of_le (by omega) hlt
    simp only [if_neg hbehind, hrest]

/-! ## The bytes -/

/-- The count is the smaller one of what is asked for and what is left. -/
theorem readCount_of_lt {fileSz offset size : Nat} (h : offset + size < 4294967296) :
    readCount fileSz offset size = min size (fileSz - offset) := by
  unfold readCount
  rw [u32_of_lt h]
  split
  · omega
  · split <;> omega

/-- A read gives the bytes of `c` from `offset` on: as many as asked for, or as there are. -/
def Positioned (m : Mem) (v : Vfs) (node : NodePtr) (c : List UInt8) (offset size : Nat) : Prop :=
  let n := if offset > c.length then 0 else min size (c.length - offset)
  ramfsRead m v node offset size = .ok (n, (c.drop offset).take n)

/-- The first bytes of a file, `size` at most, come again `offset` bytes later, as far as it goes. -/
def Repeats (data : List UInt8) (offset size : Nat) : Prop :=
  ∀ i < size, i + offset < data.length → data[i]? = data[i + offset]?

theorem repeats_iff {c : List UInt8} {offset size : Nat} :
    c.take (min size (c.length - offset)) = (c.drop offset).take (min size (c.length - offset))
      ↔ Repeats c offset size := by
  constructor
  · intro heq i hi hlt
    have hget := congrArg (fun l => l[i]?) heq
    simp only [List.getElem?_take, List.getElem?_drop] at hget
    rw [if_pos (by omega), if_pos (by omega), Nat.add_comm offset] at hget
    exact hget
  · intro hrep
    apply List.ext_getElem?
    intro i
    simp only [List.getElem?_take, List.getElem?_drop]
    split
    · rw [Nat.add_comm offset]
      exact hrep i (by omega) (by omega)
    · rfl

/-- What a read copies, in terms of the contents. -/
theorem ramfsRead_of_lt (h : HeaderOf v node header) {offset size : Nat}
    (hlt : offset + size < 4294967296) :
    ramfsRead m v node offset size
      = .ok (min size ((fileContents m header).length - offset),
          (fileContents m header).take (min size ((fileContents m header).length - offset))) := by
  have hlength : (fileContents m header).length = tarGetsize m (header + 124) := Mem.length_bytes _ _ _
  have hle : min size (tarGetsize m (header + 124) - offset) ≤ tarGetsize m (header + 124) := by omega
  rw [ramfsRead_eq h, readCount_of_lt hlt, hlength, fileContents, Mem.take_bytes _ _ hle]

/-! ## Pieces -/

/-- Reads of the given sizes, one after the other from `offset` on, and the bytes of all of them. -/
def readPieces (m : Mem) (v : Vfs) (node : NodePtr) : Nat → List Nat → Except Halt (List UInt8)
  | _, [] => .ok []
  | offset, size :: sizes => do
    let (n, bytes) ← ramfsRead m v node offset size
    let rest ← readPieces m v node (offset + n) sizes
    .ok (bytes ++ rest)

/-- `Repeats` for each piece. -/
def PiecesRepeat (c : List UInt8) : Nat → List Nat → Prop
  | _, [] => True
  | offset, size :: sizes =>
    Repeats c offset size ∧ PiecesRepeat c (offset + min size (c.length - offset)) sizes

/-- The bytes from `offset` on, cut after the first piece. -/
theorem take_drop_split (c : List UInt8) (offset size rest : Nat) :
    (c.drop offset).take (size + rest)
      = (c.drop offset).take (min size (c.length - offset))
        ++ (c.drop (offset + min size (c.length - offset))).take rest := by
  by_cases hall : size ≤ c.length - offset
  · rw [Nat.min_eq_left hall, List.take_add, List.drop_drop]
  · -- the first piece takes all that is left
    have hlength : (c.drop offset).length = c.length - offset := List.length_drop
    rw [List.drop_eq_nil_of_le (show c.length ≤ offset + min size (c.length - offset) by omega),
      List.take_nil, List.append_nil, List.take_of_length_le (by omega),
      List.take_of_length_le (by omega)]

/-- **Pieces.** Reads one after the other give the bytes from `offset` on exactly where each piece
does. -/
theorem readPieces_iff (h : HeaderOf v node header) {sizes : List Nat} {offset : Nat}
    (hlt : offset + sizes.sum < 4294967296) :
    ∃ bytes, readPieces m v node offset sizes = .ok bytes
      ∧ (bytes = ((fileContents m header).drop offset).take sizes.sum
        ↔ PiecesRepeat (fileContents m header) offset sizes) := by
  generalize hc : fileContents m header = c
  induction sizes generalizing offset with
  | nil => exact ⟨[], rfl, by simp [PiecesRepeat]⟩
  | cons size sizes ih =>
    rw [List.sum_cons] at hlt
    have hread := @ramfsRead_of_lt m v node header h offset size (by omega)
    rw [hc] at hread
    rcases @ih (offset + min size (c.length - offset)) (by omega) with ⟨rest, hrest, hiff⟩
    refine ⟨c.take (min size (c.length - offset)) ++ rest, ?_, ?_⟩
    · rw [readPieces, hread]
      simp only [bind, Except.bind]
      rw [hrest]
    · have hsame : (c.take (min size (c.length - offset))).length
          = ((c.drop offset).take (min size (c.length - offset))).length := by
        simp only [List.length_take, List.length_drop]
        omega
      rw [List.sum_cons, take_drop_split, PiecesRepeat, ← repeats_iff, ← hiff]
      constructor
      · exact fun heq => List.append_inj heq hsame
      · rintro ⟨hfirst, hothers⟩
        rw [hfirst, hothers]

/-- **Positioned reads.** For a file of the RAM disk with the contents `c`, whatever they are: a read
whose end lies below `2 ^ 32` gives the bytes behind the offset if and only if the bytes it asks for are
also those at the start of the file; and reading the file in pieces gives what one read of all of them
gives if and only if this holds of each piece. -/
theorem ramfsRead_positioned_iff (h : HeaderOf v node header) :
    (∀ offset size, offset + size < 4294967296 →
      (Positioned m v node (fileContents m header) offset size
        ↔ Repeats (fileContents m header) offset size))
      ∧ ∀ sizes : List Nat, sizes.sum < 4294967296 →
        (readPieces m v node 0 sizes = (ramfsRead m v node 0 sizes.sum).map Prod.snd
          ↔ PiecesRepeat (fileContents m header) 0 sizes) := by
  constructor
  · intro offset size hlt
    have hread := ramfsRead_of_lt (m := m) h hlt
    generalize fileContents m header = c at hread ⊢
    have hn : (if offset > c.length then 0 else min size (c.length - offset))
        = min size (c.length - offset) := by
      split <;> omega
    unfold Positioned
    simp only [hn]
    rw [hread, ← repeats_iff]
    simp only [Except.ok.injEq, Prod.mk.injEq, true_and]
  · intro sizes hlt
    have hread := @ramfsRead_of_lt m v node header h 0 sizes.sum (by omega)
    rcases @readPieces_iff m v node header h sizes 0 (by omega) with ⟨bytes, hbytes, hiff⟩
    have hall : (fileContents m header).take (min sizes.sum ((fileContents m header).length - 0))
        = ((fileContents m header).drop 0).take sizes.sum := by
      rw [List.drop_zero, Nat.sub_zero, ← List.take_eq_take_min]
    rw [hbytes, hread, ← hiff, hall]
    simp only [Except.map, Except.ok.injEq]

/-! ## The count -/

/-- **Clipping.** For a file of any size and all words `offset` and `size`: the number of bytes that
`ramfs_read` copies and returns is at most `size` and at most what the file has behind `offset`, if and
only if `offset` lies behind the end of the file or the sum does not wrap. -/
theorem ramfsRead_clipped_iff (h : HeaderOf v node header) {offset size : Nat}
    (hoffset : offset < 4294967296) (hsize : size < 4294967296) :
    ∃ n bytes, ramfsRead m v node offset size = .ok (n, bytes) ∧ bytes.length = n
      ∧ (n ≤ size ∧ n ≤ tarGetsize m (header + 124) - offset
        ↔ tarGetsize m (header + 124) < offset ∨ offset + size < 4294967296) := by
  have hlt := tarGetsize_lt m (header + 124)
  refine ⟨_, _, ramfsRead_eq h offset size, Mem.length_bytes _ _ _, ?_⟩
  generalize tarGetsize m (header + 124) = fileSz at hlt
  by_cases hwrap : offset + size < 4294967296
  · rw [readCount_of_lt hwrap]
    omega
  · -- a sum that wraps is below `offset`, and nothing is clipped
    have hsum : u32 (offset + size) = offset + size - 4294967296 := by
      unfold u32
      omega
    unfold readCount
    rw [hsum]
    split
    · omega
    · rw [if_neg (by omega)]
      omega

end

/-! ## A file of two bytes -/

/-- The header of a file at address 0, and its bytes 1 and 2. -/
def twoBytes : Mem := fun x =>
  if 124 ≤ x ∧ x < 134 then 48 else ([(0, 102), (134, 50), (512, 1), (513, 2)].lookup x).getD 0

/-- The file system with a node for this file, at 1. -/
def twoBytesVfs : Vfs :=
  { bootVfs.mallocNode (ramfsFile [102] 0) with headers := [0] }

theorem twoBytes_header : HeaderOf twoBytesVfs 1 0 := ⟨0, rfl, rfl⟩

theorem twoBytes_contents : fileContents twoBytes 0 = [1, 2] := by decide +kernel

/-- A read from the start of the file, and the file in two empty pieces and a whole one. -/
theorem ramfsRead_positioned_two :
    Positioned twoBytes twoBytesVfs 1 [1, 2] 0 2
      ∧ readPieces twoBytes twoBytesVfs 1 0 [0, 2]
        = (ramfsRead twoBytes twoBytesVfs 1 0 2).map Prod.snd := by
  have hreads := @ramfsRead_positioned_iff twoBytes twoBytesVfs 1 0 twoBytes_header
  rw [twoBytes_contents] at hreads
  constructor
  · exact (hreads.1 0 2 (by decide)).mpr fun i _ _ => rfl
  · apply (hreads.2 [0, 2] (by decide)).mpr
    exact ⟨fun i hi => absurd hi (Nat.not_lt_zero i), fun i _ _ => rfl, trivial⟩

/-- The byte at offset 1 is 2; the read gives 1. -/
theorem ramfsRead_ignores_offset :
    ramfsRead twoBytes twoBytesVfs 1 1 1 = .ok (1, [1])
      ∧ ¬ Positioned twoBytes twoBytesVfs 1 [1, 2] 1 1 := by
  have hread : ramfsRead twoBytes twoBytesVfs 1 1 1 = .ok (1, [1]) := by decide +kernel
  refine ⟨hread, ?_⟩
  unfold Positioned
  rw [hread]
  decide

/-- A read of one byte from offset 1 is clipped rightly. -/
theorem ramfsRead_clipped_two :
    ∃ n bytes, ramfsRead twoBytes twoBytesVfs 1 1 5 = .ok (n, bytes) ∧ n ≤ 5 ∧ n ≤ 1 := by
  rcases @ramfsRead_clipped_iff twoBytes twoBytesVfs 1 0 twoBytes_header 1 5 (by decide) (by decide) with
    ⟨n, bytes, hread, _, hiff⟩
  have hsize : tarGetsize twoBytes (0 + 124) = 2 := by decide +kernel
  rw [hsize] at hiff
  exact ⟨n, bytes, hread, hiff.mpr (Or.inr (by decide))⟩

/-- `2 ^ 32 - 1` bytes from offset 1 of the file: the sum is 0, and all of them are copied. -/
theorem ramfsRead_overruns :
    ∃ bytes, ramfsRead twoBytes twoBytesVfs 1 1 4294967295 = .ok (4294967295, bytes)
      ∧ tarGetsize twoBytes 124 = 2 ∧ ¬ 4294967295 ≤ tarGetsize twoBytes 124 - 1 := by
  have hsize : tarGetsize twoBytes (0 + 124) = 2 := by decide +kernel
  have hread := @ramfsRead_eq twoBytes twoBytesVfs 1 0 twoBytes_header 1 4294967295
  rw [hsize] at hread
  exact ⟨_, hread, hsize, by rw [hsize]; decide⟩

end DiyOS
