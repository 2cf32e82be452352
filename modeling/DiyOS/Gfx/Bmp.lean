import DiyOS.Fs.Descriptors
import DiyOS.Fs.Read

/-!
# Loading images (`gui/util/bmp.c`)

The loader reads the header of the file, then the whole file into a block of `total_size` bytes. It compares
none of the header fields with each other.

* **`readFile`** — what `read` gives for the file, whatever was read before.
* **`bmpImageFromFile_of_loads`** — what is in memory when an image is loaded.
* **`bmp_image_validated_iff`** — for which files a loaded image is sound.
-/

namespace DiyOS

open Word CString

/-! ## `bmp_image_from_file`

The file is opened twice, for the header and for the whole. Only the number of bytes is compared, with
`total_size` as it has been read the second time. -/

/-- `read` of `size` bytes of a file that was just opened; `none` if it could not be opened. A read begins at
the first byte of the file, each time. -/
def readFile (file : Option (List UInt8)) (size : Nat) : Nat × List UInt8 :=
  match file with
  | none => (0, [])
  | some contents => (min size contents.length, contents.take size)

/-- The local variable `hdr`, with the bytes that were read into it. -/
def hdrMem (bytes : List UInt8) : Mem := fun i => bytes.getD i 0

/-- `sizeof(struct bmp_image)`; the structure is packed. -/
def bmpHeaderSize : Nat := 58

/-- The end of `bmp_image_from_file`, where `sz` bytes were read to `bmp`. -/
def bmpFinish (m : Mem) (bmp sz : Nat) : Nat × Mem :=
  if sz ≠ m.readWord (bmp + 2) then (null, m)
  else (bmp, m.writeWord (bmp + 54) (u32 (bmp + m.readWord (bmp + 10))))

/-- `bmp_image_from_file` from the result `bmp` of `malloc` on. -/
def bmpLoad (m : Mem) (file : Option (List UInt8)) (totalSize bmp : Nat) : Nat × Mem :=
  if bmp = null then (null, m)
  else
    let (sz, bytes) := readFile file totalSize
    bmpFinish (m.writeBytes bmp bytes) bmp sz

/-- `bmp_image_from_file`: the pointer that it returns, and the memory that it leaves. `malloc n` is the
block that `malloc` gives for `n` bytes. -/
def bmpImageFromFile (malloc : Nat → Nat) (m : Mem) (file : Option (List UInt8)) : Nat × Mem :=
  -- `fd` is unsigned, so the test for a failed `open` is never true
  let (sz, hdr) := readFile file bmpHeaderSize
  if sz ≠ bmpHeaderSize then (null, m)
  else
    let totalSize := (hdrMem hdr).readWord 2
    bmpLoad m file totalSize (malloc totalSize)

/-! ## The fields of the header

As the file has them, in its first 58 bytes. The last word of these is overwritten with the pointer to the
pixels. -/

def bmpTotalSize (contents : List UInt8) : Nat := (hdrMem contents).readWord 2

def bmpOffset (contents : List UInt8) : Nat := (hdrMem contents).readWord 10

def bmpWidth (contents : List UInt8) : Int := int32 ((hdrMem contents).readWord 18)

def bmpHeight (contents : List UInt8) : Int := int32 ((hdrMem contents).readWord 22)

/-- The first bytes of the file are all that is read of it. -/
theorem hdrMem_take (contents : List UInt8) {n k : Nat} (hk : k < n) :
    hdrMem (contents.take n) k = hdrMem contents k := by
  unfold hdrMem
  rw [List.getD_eq_getElem?_getD, List.getD_eq_getElem?_getD, List.getElem?_take_of_lt hk]

/-- A word of the block, where the block was loaded. -/
theorem loaded_readWord (m : Mem) (bmp : Nat) {contents : List UInt8} {n i : Nat} (hn : n ≤ contents.length)
    (hi : i + 4 ≤ n) :
    (m.writeBytes bmp (contents.take n)).readWord (bmp + i) = (hdrMem contents).readWord i := by
  refine Mem.readWord_congr fun k hk => ?_
  have hlt : i + k < (contents.take n).length := by
    rw [List.length_take]
    omega
  rw [Nat.add_assoc, Mem.writeBytes_apply m bmp hlt, List.getElem_take]
  unfold hdrMem
  rw [List.getD_eq_getElem?_getD, List.getElem?_eq_getElem (show i + k < contents.length by omega)]
  rfl

/-! ## When an image is loaded

A file that is shorter than its `total_size` is refused, by the comparison at the end. That compares with the
word in memory, which is the file's unless the block is too short to hold it. -/

section

variable {malloc : Nat → Nat} {m : Mem} {contents : List UInt8}

/-- The word that the loader compares with the number of bytes read: `bmp->total_size`. -/
def loadedTotalSize (malloc : Nat → Nat) (m : Mem) (contents : List UInt8) : Nat :=
  (m.writeBytes (malloc (bmpTotalSize contents)) (contents.take (bmpTotalSize contents))).readWord
    (malloc (bmpTotalSize contents) + 2)

/-- With six bytes or more, the size that is compared is the one in the file. -/
theorem loadedTotalSize_eq (h : 6 ≤ min (bmpTotalSize contents) contents.length) :
    loadedTotalSize malloc m contents = bmpTotalSize contents := by
  have htake : contents.take (bmpTotalSize contents)
      = contents.take (min (bmpTotalSize contents) contents.length) := List.take_eq_take_min
  unfold loadedTotalSize
  rw [htake, loaded_readWord m _ (by omega) (by omega)]
  rfl

theorem bmpFinish_of_ne {bmp sz : Nat} (h : sz ≠ m.readWord (bmp + 2)) : (bmpFinish m bmp sz).1 = null := by
  unfold bmpFinish
  rw [if_pos h]

theorem bmpFinish_of_eq {bmp sz : Nat} (h : sz = m.readWord (bmp + 2)) :
    bmpFinish m bmp sz = (bmp, m.writeWord (bmp + 54) (u32 (bmp + m.readWord (bmp + 10)))) :=
  if_neg (not_not.mpr h)

theorem bmpLoad_null {totalSize bmp : Nat} (h : bmp = null) :
    bmpLoad m (some contents) totalSize bmp = (null, m) := if_pos h

theorem bmpLoad_eq {totalSize bmp : Nat} (h : bmp ≠ null) :
    bmpLoad m (some contents) totalSize bmp
      = bmpFinish (m.writeBytes bmp (contents.take totalSize)) bmp (min totalSize contents.length) := if_neg h

/-- A call for a file with a whole header. -/
theorem bmpImageFromFile_eq (hheader : 58 ≤ contents.length) :
    bmpImageFromFile malloc m (some contents)
      = bmpLoad m (some contents) (bmpTotalSize contents) (malloc (bmpTotalSize contents)) := by
  have htotal : (hdrMem (contents.take 58)).readWord 2 = bmpTotalSize contents :=
    Mem.readWord_congr fun k hk => hdrMem_take contents (by omega)
  have hread : readFile (some contents) bmpHeaderSize = (58, contents.take 58) := by
    unfold readFile bmpHeaderSize
    simp only [Nat.min_eq_left hheader]
  unfold bmpImageFromFile
  rw [hread]
  show (if 58 ≠ bmpHeaderSize then (null, m) else bmpLoad m (some contents)
    ((hdrMem (contents.take 58)).readWord 2) (malloc ((hdrMem (contents.take 58)).readWord 2))) = _
  rw [if_neg (by decide), htotal]

/-- The call gives an image. -/
def BmpLoads (malloc : Nat → Nat) (m : Mem) (contents : List UInt8) : Prop :=
  58 ≤ contents.length ∧ malloc (bmpTotalSize contents) ≠ null ∧ bmpTotalSize contents ≤ contents.length
    ∧ (bmpTotalSize contents < 6 → loadedTotalSize malloc m contents = bmpTotalSize contents)

/-- An image that is loaded is the file, with the pointer to the pixels. -/
theorem bmpImageFromFile_of_loads (h : BmpLoads malloc m contents) {bmp : Nat} {m' : Mem}
    (hbmp : malloc (bmpTotalSize contents) = bmp)
    (hm' : m.writeBytes bmp (contents.take (bmpTotalSize contents)) = m') :
    bmpImageFromFile malloc m (some contents)
      = (bmp, m'.writeWord (bmp + 54) (u32 (bmp + m'.readWord (bmp + 10)))) := by
  obtain ⟨hheader, hnull, hfits, hsmall⟩ := h
  have hequal : loadedTotalSize malloc m contents = bmpTotalSize contents := by
    by_cases hlt : bmpTotalSize contents < 6
    · exact hsmall hlt
    · exact loadedTotalSize_eq (by omega)
  unfold loadedTotalSize at hequal
  rw [hbmp] at hnull hequal
  rw [hm'] at hequal
  rw [bmpImageFromFile_eq hheader, hbmp, bmpLoad_eq hnull, Nat.min_eq_left hfits, hm']
  exact bmpFinish_of_eq hequal.symm

/-- Otherwise the null pointer is returned. -/
theorem bmpImageFromFile_of_not_loads (h : ¬ BmpLoads malloc m contents) :
    (bmpImageFromFile malloc m (some contents)).1 = null := by
  by_cases hheader : 58 ≤ contents.length
  · rw [bmpImageFromFile_eq hheader]
    by_cases hnull : malloc (bmpTotalSize contents) = null
    · rw [bmpLoad_null hnull]
    · rw [bmpLoad_eq hnull]
      refine bmpFinish_of_ne fun heq => h ⟨hheader, hnull, ?_, fun hlt => ?_⟩
      · by_contra hlong
        have hequal := heq.trans (@loadedTotalSize_eq malloc m contents (by omega))
        omega
      · exact heq.symm.trans (Nat.min_eq_left (by omega))
  · -- the first read gives fewer bytes than the header has
    have hread : readFile (some contents) bmpHeaderSize = (min 58 contents.length, contents.take 58) := rfl
    unfold bmpImageFromFile
    rw [hread]
    exact congrArg Prod.fst (if_pos (show min 58 contents.length ≠ 58 by omega))

/-! ## The pixels

The drawing code goes through width times height words, from the pointer on. Addresses have 32 bits; a row of
pixels that begins inside the block and ends outside passes its end, so wrapping makes nothing sound. -/

/-- Where the drawing code reads the pixel `(x, y)` of the image at `bmp`. -/
def bmpPixelAt (m : Mem) (bmp x y : Nat) : Nat :=
  u32 (m.readWord (bmp + 54) + 4 * (y * m.readWord (bmp + 18) + x))

/-- The pixels of `width * height` words, from `offset` on, lie in the block of `size` bytes at `bmp`: with
addresses of 32 bits as well, since a pixel cannot jump over the end of the block. -/
theorem pixels_inside_iff {bmp size offset width height : Nat} (hnull : bmp ≠ null)
    (hblock : bmp + size ≤ 4294967296) (hoffset : offset < 4294967296) (hwidth : 0 < width)
    (hheight : 0 < height) :
    (∀ x y, x < width → y < height → bmp ≤ u32 (u32 (bmp + offset) + 4 * (y * width + x))
        ∧ u32 (u32 (bmp + offset) + 4 * (y * width + x)) + 4 ≤ bmp + size)
      ↔ offset + 4 * (width * height) ≤ size := by
  unfold null at hnull
  constructor
  · intro hin
    -- counted along the rows, a pixel is four bytes behind the one before
    have hpixel : ∀ k < width * height, bmp ≤ u32 (bmp + offset + 4 * k)
        ∧ u32 (bmp + offset + 4 * k) + 4 ≤ bmp + size := by
      intro k hk
      have hk' := hin (k % width) (k / width) (Nat.mod_lt k hwidth) (Nat.div_lt_of_lt_mul hk)
      rw [Nat.div_add_mod', u32_u32_add] at hk'
      exact hk'
    -- by induction no pixel wraps: the one before ends inside the block, and the next begins there
    have hsteps : ∀ k < width * height, offset + 4 * k + 4 ≤ size := by
      intro k hk
      induction k with
      | zero =>
        have hfirst := hpixel 0 hk
        unfold u32 at hfirst
        omega
      | succ k ih =>
        have hprev := ih (by omega)
        have hnext := hpixel (k + 1) hk
        unfold u32 at hnext
        omega
    have hpos : 0 < width * height := Nat.mul_pos hwidth hheight
    have hlast := hsteps (width * height - 1) (by omega)
    omega
  · intro hfits x y hx hy
    have hindex : y * width + x < width * height := by
      have hrow : (y + 1) * width ≤ height * width := Nat.mul_le_mul_right width hy
      rw [Nat.add_mul, Nat.one_mul, Nat.mul_comm height] at hrow
      omega
    rw [u32_u32_add, u32_of_lt (by omega)]
    omega

/-- The same for a picture whose width and height are signed, as the header has them; `columns` is the width
that the drawing code multiplies with. -/
theorem signed_pixels_inside_iff {bmp size offset columns : Nat} {width height : Int} (hnull : bmp ≠ null)
    (hblock : bmp + size ≤ 4294967296) (hoffset : offset < 4294967296)
    (hcolumns : 0 < width → columns = width.toNat) :
    (∀ x y : Nat, (x : Int) < width → (y : Int) < height →
        bmp ≤ u32 (u32 (bmp + offset) + 4 * (y * columns + x))
          ∧ u32 (u32 (bmp + offset) + 4 * (y * columns + x)) + 4 ≤ bmp + size)
      ↔ width ≤ 0 ∨ height ≤ 0 ∨ offset + 4 * (width.toNat * height.toNat) ≤ size := by
  by_cases hw : width ≤ 0
  · refine iff_of_true (fun x y hx _ => ?_) (Or.inl hw)
    omega
  · by_cases hh : height ≤ 0
    · refine iff_of_true (fun x y _ hy => ?_) (Or.inr (Or.inl hh))
      omega
    · have hiff := @pixels_inside_iff bmp size offset width.toNat height.toNat hnull hblock hoffset (by omega)
        (by omega)
      rw [or_iff_right hw, or_iff_right hh, ← hiff, hcolumns (by omega)]
      exact ⟨fun h x y hx hy => h x y (by omega) (by omega), fun h x y hx hy => h x y (by omega) (by omega)⟩

/-! ## Validation

What a caller may expect of an image, and which files give it: nothing in the loader relates width, height and
offset to the size of the block. -/

/-- An image at `bmp`, loaded from a file with these contents, with `m` as memory: the header is inside
the file, the pointer to the pixels (the last word of the header) is inside the block of `total_size` bytes,
and so is each pixel that will be read. -/
structure BmpSound (contents : List UInt8) (bmp : Nat) (m : Mem) : Prop where
  header : 58 ≤ contents.length
  pointer : 58 ≤ bmpTotalSize contents
  pixels : ∀ x y : Nat, (x : Int) < int32 (m.readWord (bmp + 18)) → (y : Int) < int32 (m.readWord (bmp + 22)) →
    bmp ≤ bmpPixelAt m bmp x y ∧ bmpPixelAt m bmp x y + 4 ≤ bmp + bmpTotalSize contents

/-- If `bmp_image_from_file` gives an image, it is sound. -/
def Validates (malloc : Nat → Nat) (m : Mem) (contents : List UInt8) : Prop :=
  (bmpImageFromFile malloc m (some contents)).1 ≠ null →
    BmpSound contents (bmpImageFromFile malloc m (some contents)).1
      (bmpImageFromFile malloc m (some contents)).2

theorem int32_of_pos {n : Nat} (hn : n < 4294967296) (h : 0 < int32 n) : int32 n = n := by
  unfold int32 u32 at h ⊢
  split at h
  · rw [if_pos ‹_›]
    omega
  · omega

theorem bmpOffset_lt (contents : List UInt8) : bmpOffset contents < 4294967296 := Mem.readWord_lt _ _

/-- The block of an image whose header was loaded. -/
theorem bmpSound_iff {bmp : Nat} {m' : Mem} (hheader : 58 ≤ contents.length)
    (hpointer : 58 ≤ bmpTotalSize contents) (hnull : bmp ≠ null)
    (hblock : bmp + bmpTotalSize contents ≤ 4294967296)
    (hfields : ∀ i ≤ 50, m'.readWord (bmp + i) = (hdrMem contents).readWord i) :
    BmpSound contents bmp (m'.writeWord (bmp + 54) (u32 (bmp + m'.readWord (bmp + 10)))) ↔
      bmpWidth contents ≤ 0 ∨ bmpHeight contents ≤ 0
        ∨ bmpOffset contents + 4 * ((bmpWidth contents).toNat * (bmpHeight contents).toNat)
          ≤ bmpTotalSize contents := by
  -- the pointer is written behind the fields, which stay as they are in the file
  have hword : ∀ i ≤ 50, (m'.writeWord (bmp + 54) (u32 (bmp + m'.readWord (bmp + 10)))).readWord (bmp + i)
      = (hdrMem contents).readWord i := by
    intro i hi
    rw [Mem.readWord_writeWord_of_disjoint _ _ (by omega)]
    exact hfields i hi
  have hdata : (m'.writeWord (bmp + 54) (u32 (bmp + m'.readWord (bmp + 10)))).readWord (bmp + 54)
      = u32 (bmp + bmpOffset contents) := by
    unfold bmpOffset
    rw [Mem.readWord_writeWord _ _ (u32_lt _), hfields 10 (by decide)]
  generalize m'.writeWord (bmp + 54) (u32 (bmp + m'.readWord (bmp + 10))) = m'' at hword hdata
  have hwidth : int32 (m''.readWord (bmp + 18)) = bmpWidth contents := by
    unfold bmpWidth
    rw [hword 18 (by decide)]
  have hheight : int32 (m''.readWord (bmp + 22)) = bmpHeight contents := by
    unfold bmpHeight
    rw [hword 22 (by decide)]
  have hsound : BmpSound contents bmp m'' ↔ ∀ x y : Nat, (x : Int) < bmpWidth contents →
      (y : Int) < bmpHeight contents →
      bmp ≤ bmpPixelAt m'' bmp x y ∧ bmpPixelAt m'' bmp x y + 4 ≤ bmp + bmpTotalSize contents := by
    rw [← hwidth, ← hheight]
    exact ⟨fun h => h.pixels, fun h => ⟨hheader, hpointer, h⟩⟩
  have hcolumns : 0 < bmpWidth contents → m''.readWord (bmp + 18) = (bmpWidth contents).toNat := by
    intro hpos
    rw [← hwidth] at hpos ⊢
    rw [int32_of_pos (Mem.readWord_lt _ _) hpos, Int.toNat_natCast]
  rw [hsound]
  unfold bmpPixelAt
  rw [hdata]
  exact signed_pixels_inside_iff hnull hblock (bmpOffset_lt contents) hcolumns

/-- **Validation.** An image that is loaded is sound exactly if: there is none (the file is shorter than the
header or than its `total_size`, there is no memory, or, for a block of fewer than six bytes, the word that is
compared differs); or the block holds the header, and the image has no pixel or its last pixel lies in the
block. -/
theorem bmp_image_validated_iff (hmalloc : ∀ n, malloc n ≠ null → malloc n + n ≤ 4294967296) :
    Validates malloc m contents ↔
      contents.length < 58 ∨ malloc (bmpTotalSize contents) = null
      ∨ contents.length < bmpTotalSize contents
      ∨ (bmpTotalSize contents < 6 ∧ loadedTotalSize malloc m contents ≠ bmpTotalSize contents)
      ∨ (58 ≤ bmpTotalSize contents ∧ (bmpWidth contents ≤ 0 ∨ bmpHeight contents ≤ 0
        ∨ bmpOffset contents + 4 * ((bmpWidth contents).toNat * (bmpHeight contents).toNat)
          ≤ bmpTotalSize contents)) := by
  unfold Validates
  by_cases hloads : BmpLoads malloc m contents
  · rw [bmpImageFromFile_of_loads hloads rfl rfl]
    obtain ⟨hheader, hnull, hfits, hsmall⟩ := hloads
    -- the first four ways out are no ways for an image that is loaded
    have hrest : ¬ (bmpTotalSize contents < 6
        ∧ loadedTotalSize malloc m contents ≠ bmpTotalSize contents) := fun hand => hand.2 (hsmall hand.1)
    rw [or_iff_right (Nat.not_lt.mpr hheader), or_iff_right hnull, or_iff_right (Nat.not_lt.mpr hfits),
      or_iff_right hrest]
    by_cases hpointer : 58 ≤ bmpTotalSize contents
    · have hsound := @bmpSound_iff contents (malloc (bmpTotalSize contents))
        (m.writeBytes (malloc (bmpTotalSize contents)) (contents.take (bmpTotalSize contents))) hheader hpointer
        hnull (hmalloc _ hnull) fun i hi => loaded_readWord m _ hfits (by omega)
      rw [and_iff_right hpointer, ← hsound]
      exact ⟨fun h => h hnull, fun h _ => h⟩
    · exact iff_of_false (fun h => hpointer (h hnull).pointer) fun h => hpointer h.1
  · refine iff_of_true (fun hne => absurd (bmpImageFromFile_of_not_loads hloads) hne) ?_
    by_contra hcond
    refine hloads ⟨?_, fun hnull => hcond (Or.inr (Or.inl hnull)), ?_, fun hlt => ?_⟩
    · by_contra hshort
      exact hcond (Or.inl (by omega))
    · by_contra hlong
      exact hcond (Or.inr (Or.inr (Or.inl (by omega))))
    · by_contra hdiffer
      exact hcond (Or.inr (Or.inr (Or.inr (Or.inl ⟨hlt, hdiffer⟩))))

end

/-- A file of 62 bytes: a header, with one row of `width` pixels at offset 58, and the bytes of one pixel. -/
def onePixelFile (width : UInt8) : List UInt8 :=
  [66, 77, 62, 0, 0, 0, 0, 0, 0, 0, 58, 0, 0, 0, 40, 0, 0, 0, width, 0, 0, 0, 1, 0, 0, 0, 1, 0, 32, 0]
    ++ List.replicate 32 0

/-- An allocator that has one block, for a file of 62 bytes. -/
def oneBlock (n : Nat) : Nat := if n = 62 then 4096 else null

theorem oneBlock_le {n : Nat} (h : oneBlock n ≠ null) : oneBlock n + n ≤ 4294967296 := by
  unfold oneBlock at h ⊢
  split at h
  · rw [if_pos ‹_›]
    omega
  · exact absurd rfl h

/-- A file whose only pixel ends at the end of the block. -/
theorem bmp_image_validated_one : Validates oneBlock (fun _ => 0) (onePixelFile 1) :=
  (bmp_image_validated_iff fun _ h => oneBlock_le h).mpr
    (Or.inr (Or.inr (Or.inr (Or.inr ⟨by decide, Or.inr (Or.inr (by decide))⟩))))

/-- The header says that there are two pixels: the second one is behind the block. -/
theorem bmp_image_not_validated_two : ¬ Validates oneBlock (fun _ => 0) (onePixelFile 2) := by
  intro hvalid
  have hsound := hvalid (by decide)
  exact absurd (hsound.pixels 1 0 (by decide +kernel) (by decide)) (by decide +kernel)

end DiyOS
